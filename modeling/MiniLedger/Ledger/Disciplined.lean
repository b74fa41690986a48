import Mathlib.Data.Prod.Lex
import Mathlib.Data.String.Basic
import MiniLedger.Ledger.Isolation

/-!
# The requests keep the discipline

One pass over the programs of the three use cases checks what each of their statements
finds held, and, for requests whose ids sort alike as texts and as uuid values, that
resources are taken in ascending order. A second pass follows the answers that can go
stale to the point where the code gives up.
-/

namespace MiniLedger

open Collections Sessions

/-- The order in which resources are taken: a key or an account, the balance rows by their
uuid, the entries of a journal. -/
def rank : Resource → ℕ ×ₗ String
  | .account _ => toLex (0, "")
  | .key _ => toLex (0, "")
  | .balance u => toLex (1, u.text)
  | .journal _ => toLex (2, "")
  | .reverses _ => toLex (2, "")

/-- The rules of the discipline and, if the requests are `ordered`, ascending acquisition. -/
def ledgerRules (ordered : Prop) : Rules postgres where
  mayAsk := mayAsk
  maySend held s := maySend held s ∧ (ordered → ∀ r ∈ s.needs, r ∈ held ∨ ∀ h ∈ held, rank h < rank r)

variable {ordered : Prop} {held : List Resource}

/-! ## What is held when a statement is sent -/

theorem follows_ofExcept {α : Type} {R : Rules postgres} {post : List Resource → α → Prop} {x : Except Failure α}
    (h : ∀ a, x = .ok a → post held a) : R.Follows post held (Prog.ofExcept x : InTx α) := by
  cases x with
  | ok a => exact h a rfl
  | error e => trivial

theorem findAccounts_follows {post : List Resource → List (Option Account) → Prop} {ids : List AccountId}
    (h : ∀ accounts, post held accounts) :
    (ledgerRules ordered).Follows post held (LedgerPoster.findAccounts ids) := by
  induction ids generalizing post with
  | nil => exact h []
  | cons id ids ih =>
    refine Rules.follows_bind ⟨trivial, fun row => ?_⟩
    have next : ∀ o : Option Account, (ledgerRules ordered).Follows post held
        ((LedgerPoster.findAccounts ids).bind fun accounts => .pure (o :: accounts)) :=
      fun o => Rules.follows_bind (ih fun accounts => h (o :: accounts))
    cases row with
    | none => exact next none
    | some e =>
      obtain ⟨u, row⟩ := e
      change (ledgerRules ordered).Follows _ held (Prog.lift (Prog.bind (Prog.ofExcept (AccountsRepository.toDomain u row)) _))
      cases AccountsRepository.toDomain u row with
      | error e => trivial
      | ok a => exact next (some a)

theorem mem_uuidOf {text : String} {r : Resource} {f : Uuid → Resource} :
    r ∈ (uuidOf text).map f ↔ ∃ u, Uuid.parse? text = some u ∧ r = f u := by
  simp [uuidOf, eq_comm]

/-- Texts of ids that sort as the ids do. -/
def SortAlike (ids : List AccountId) : Prop :=
  ∀ a ∈ ids, ∀ b ∈ ids, a.value ≤ b.value → printed a.value ≤ printed b.value

instance (ids : List AccountId) : Decidable (SortAlike ids) :=
  inferInstanceAs (Decidable (∀ a ∈ ids, ∀ b ∈ ids, a.value ≤ b.value → printed a.value ≤ printed b.value))

/-- The loop of `lockForUpdate` holds the rows of all its ids at the end, and nothing else
it did not hold before. -/
theorem lockEach_follows {post : List Resource → Keyed String BalanceRow → Prop} {ids : List String}
    {start : Keyed String BalanceRow}
    (hup : ordered → ∀ id ∈ ids, ∀ u, Uuid.parse? id = some u → ∀ r ∈ held, r = .balance u ∨ rank r < rank (.balance u))
    (hsorted : ordered → ids.Pairwise fun a b => printed a ≤ printed b)
    (h : ∀ held' out, held ⊆ held' → (∀ id ∈ ids, ∀ u, Uuid.parse? id = some u → .balance u ∈ held') →
      (∀ r ∈ held', r ∈ held ∨ ∃ u, r = .balance u) → (∀ k ∈ out.keys, k ∈ start.keys ∨ k ∈ ids) → post held' out) :
    (ledgerRules ordered).Follows post held (AccountBalancesRepository.lockEach ids start) := by
  induction ids generalizing held start with
  | nil => exact h held start (List.Subset.refl _) (by simp) (fun r hr => .inl hr) fun k hk => .inl hk
  | cons id ids ih =>
    refine Rules.follows_bind ⟨⟨trivial, fun ho r hr => ?_⟩, fun row => ?_⟩
    · obtain ⟨u, hu, rfl⟩ := mem_uuidOf.1 hr
      by_cases hm : .balance u ∈ held
      · exact .inl hm
      · refine .inr fun r' hr' => (hup ho id (List.mem_cons_self ..) u hu r' hr').resolve_left ?_
        rintro rfl
        exact hm hr'
    · cases row with
      | none => trivial
      | some row =>
        refine ih (fun ho id' hid' u hu r hr => ?_) (fun ho => (List.pairwise_cons.1 (hsorted ho)).2)
          fun held' out hsub hall honly hkeys => h held' out (fun r hr => hsub (List.mem_append_left _ hr)) ?_ ?_ ?_
        · rcases List.mem_append.1 hr with hr | hr
          · exact hup ho id' (List.mem_cons_of_mem _ hid') u hu r hr
          · obtain ⟨v, hv, rfl⟩ := mem_uuidOf.1 hr
            have hle := (List.pairwise_cons.1 (hsorted ho)).1 id' hid'
            rw [← Uuid.parse?_eq_some hv, ← Uuid.parse?_eq_some hu] at hle
            rcases hle.eq_or_lt with heq | hlt
            · exact .inl (by rw [Uuid.ext heq])
            · exact .inr (Prod.Lex.toLex_lt_toLex.2 (.inr ⟨rfl, hlt⟩))
        · rw [List.forall_mem_cons]
          exact ⟨fun u hu => hsub (List.mem_append_right _ (mem_uuidOf.2 ⟨u, hu, rfl⟩)), hall⟩
        · intro r hr
          rcases honly r hr with hr | hr
          · rcases List.mem_append.1 hr with hr | hr
            · exact .inl hr
            · obtain ⟨u, -, rfl⟩ := mem_uuidOf.1 hr
              exact .inr ⟨u, rfl⟩
          · exact .inr hr
        · intro k hk
          rcases hkeys k hk with hk | hk
          · rcases Keyed.mem_setIn_keys.1 hk with rfl | hk
            · exact .inr (List.mem_cons_self ..)
            · exact .inl hk
          · exact .inr (List.mem_cons_of_mem _ hk)

theorem lockForUpdate_follows {post : List Resource → Keyed String BalanceRow → Prop} {ids : List AccountId}
    (hkeys : ∀ r ∈ held, ∃ k, r = .key k) (hsort : ordered → SortAlike ids)
    (h : ∀ held' out, held ⊆ held' → (∀ id ∈ ids, ∀ u, Uuid.parse? id.value = some u → .balance u ∈ held') →
      (∀ r ∈ held', r ∈ held ∨ ∃ u, r = .balance u) → (∀ k ∈ out.keys, ∃ id ∈ ids, id.value = k) → post held' out) :
    (ledgerRules ordered).Follows post held (AccountBalancesRepository.lockForUpdate ids) := by
  refine lockEach_follows (fun _ _ _ u _ r hr => ?_) (fun ho => ?_) fun held' out hsub hall honly hout => ?_
  · obtain ⟨k, rfl⟩ := hkeys r hr
    exact .inr (Prod.Lex.toLex_lt_toLex.2 (.inl Nat.zero_lt_one))
  · have hsorted : (AccountBalancesRepository.lockOrder ids).Pairwise (· ≤ ·) := List.pairwise_insertionSort _ _
    refine hsorted.imp_of_mem fun ha hb hle => ?_
    obtain ⟨a, hida, rfl⟩ := AccountBalancesRepository.mem_lockOrder.1 ha
    obtain ⟨b, hidb, rfl⟩ := AccountBalancesRepository.mem_lockOrder.1 hb
    exact hsort ho a hida b hidb hle
  · refine h held' out hsub (fun id hid => hall _ (AccountBalancesRepository.mem_lockOrder.2 ⟨id, hid, rfl⟩)) honly
      fun k hk => ?_
    rcases hout k hk with hk | hk
    · simp [Keyed.keys, Keyed.empty] at hk
    · exact AccountBalancesRepository.mem_lockOrder.1 hk

theorem insertPostings_follows {post : List Resource → Unit → Prop} {values : List PostingValues}
    (hall : ∀ v ∈ values, (∀ id, Uuid.parse? v.transactionId = some id → .journal id ∈ held) ∧
      ∀ u, Uuid.parse? v.accountId = some u → .balance u ∈ held) (h : post held ()) :
    (ledgerRules ordered).Follows post held (JournalTransactionsRepository.insertPostings values) := by
  refine Rules.follows_bind (follows_ofExcept fun _ hbind => ?_)
  clear hbind
  induction values with
  | nil => exact h
  | cons v values ih =>
    rw [List.forall_mem_cons] at hall
    refine Rules.follows_bind ⟨⟨hall.1, fun _ r hr => by cases hr⟩, fun _ => ?_⟩
    have next := ih hall.2
    rwa [← List.append_nil held] at next

theorem append_follows {post : List Resource → Unit → Prop} {journal : JournalTransaction} {lines : List PostingLine}
    {reverses : Option String} (hbelow : ordered → ∀ r ∈ held, rank r < toLex (2, ""))
    (hlocked : ∀ p ∈ journal.postings, ∀ u, Uuid.parse? p.accountId.value = some u → .balance u ∈ held)
    (h : ∀ held', held ⊆ held' → post held' ()) :
    (ledgerRules ordered).Follows post held (JournalTransactionsRepository.append journal lines reverses) := by
  unfold JournalTransactionsRepository.append
  split
  · trivial
  · refine ⟨⟨trivial, fun ho r hr => .inr fun r' hr' => ?_⟩, fun _ => ?_⟩
    · have htop : rank r = toLex (2, "") := by
        rcases List.mem_append.1 hr with hr | hr <;> obtain ⟨_, _, rfl⟩ := List.mem_map.1 hr <;> rfl
      rw [htop]
      exact hbelow ho r' hr'
    · refine insertPostings_follows (fun v hv => ?_) (h _ (List.subset_append_left ..))
      obtain ⟨p, hp, l, -, rfl⟩ := exists_of_mem_zipWith hv
      refine ⟨fun id hid => ?_, fun u hu => List.mem_append_left _ (hlocked p hp u hu)⟩
      exact List.mem_append_right _ (List.mem_append_left _ (mem_uuidOf.2 ⟨id, hid, rfl⟩))

theorem updateBalances_follows {post : List Resource → Unit → Prop} {entries : List (String × BalanceRow)}
    (hlocked : ∀ e ∈ entries, ∀ u, Uuid.parse? e.1 = some u → .balance u ∈ held)
    (h : ∀ held', held ⊆ held' → post held' ()) :
    (ledgerRules ordered).Follows post held (LedgerPoster.updateBalances entries) := by
  induction entries generalizing held with
  | nil => exact h held (List.Subset.refl _)
  | cons e entries ih =>
    rw [List.forall_mem_cons] at hlocked
    refine Rules.follows_bind ⟨⟨trivial, fun _ r hr => ?_⟩, fun _ => ?_⟩
    · obtain ⟨u, hu, rfl⟩ := mem_uuidOf.1 hr
      exact .inl (hlocked.1 u hu)
    · exact ih (fun e he u hu => List.mem_append_left _ (hlocked.2 e he u hu))
        fun held' hsub => h held' fun r hr => hsub (List.mem_append_left _ hr)

variable {sha256 : String → String}

/-- `post` keeps the rules. -/
theorem post_follows {journal : JournalTransaction} {currency : Currency} {options : PostOptions}
    {post : List Resource → TransferReceipt → Prop} (hkeys : ∀ r ∈ held, ∃ k, r = .key k)
    (hsort : ordered → SortAlike (journal.postings.map Posting.accountId))
    (h : ∀ held' receipt, held ⊆ held' → post held' receipt) :
    (ledgerRules ordered).Follows post held (LedgerPoster.post sha256 journal currency options) := by
  refine Rules.follows_bind (findAccounts_follows fun accounts => ?_)
  refine Rules.follows_bind (follows_ofExcept fun involved _ => ?_)
  refine Rules.follows_bind (follows_ofExcept fun _ _ => ?_)
  refine Rules.follows_bind (lockForUpdate_follows hkeys hsort fun held₁ locked hsub hall honly hout => ?_)
  refine Rules.follows_bind (follows_ofExcept fun legs hlegs => ?_)
  have hlocked : ∀ p ∈ journal.postings, ∀ u, Uuid.parse? p.accountId.value = some u → .balance u ∈ held₁ :=
    fun p hp => hall p.accountId (List.mem_map_of_mem hp)
  have hbelow : ordered → ∀ r ∈ held₁, rank r < toLex (2, "") := by
    intro _ r hr
    rcases honly r hr with hr | ⟨u, rfl⟩
    · obtain ⟨k, rfl⟩ := hkeys r hr
      exact Prod.Lex.toLex_lt_toLex.2 (.inl Nat.zero_lt_two)
    · exact Prod.Lex.toLex_lt_toLex.2 (.inl Nat.one_lt_two)
  refine Rules.follows_bind (append_follows hbelow hlocked fun held₂ hsub₂ => ?_)
  refine Rules.follows_bind (updateBalances_follows (fun e he u hu => hsub₂ ?_) fun held₃ hsub₃ => ?_)
  · have hk : e.1 ∈ locked.keys := by
      rw [← LedgerPoster.postLegs_keys hlegs]
      exact List.mem_map_of_mem he
    obtain ⟨id, hid, hidk⟩ := hout e.1 hk
    exact hall id hid u (hidk ▸ hu)
  · refine Rules.follows_bind ⟨⟨trivial, fun _ r hr => by cases hr⟩, fun _ => h _ _ fun r hr => ?_⟩
    exact List.mem_append_left _ (hsub₃ (hsub₂ (hsub hr)))

/-- A reply that reports an error. -/
def Reply.Refused : Reply → Prop
  | .opened (.error _) => True
  | .transferred (.error _) => True
  | .reversed (.error _) => True
  | _ => False

/-- What holds of every refusal and of the transactions of the three use cases holds of
every plan a request makes. -/
theorem request_returns {P : Plan sql Failure Reply → Prop} (request : Request)
    (hreply : ∀ r : Reply, r.Refused → P (.reply r))
    (hopen : ∀ account : Account, account.handle = none → P (.transaction (AccountsService.body account) .error))
    (htransfer : ∀ input id currency amount journal, request = .transfer input id →
      Checked input id currency amount journal →
      P (.transaction (TransferService.body sha256 input currency journal) TransferService.recover))
    (hreverse : ∀ transactionId original id currency journal, Compensated original id currency journal →
      P (.transaction (ReverseService.body sha256 transactionId journal currency) ReverseService.recover)) :
    (request.call sha256).Returns P := by
  cases request with
  | open_ input id now =>
    rw [Request.call, AccountsService.open_]
    split
    · exact hreply _ trivial
    · exact hopen _ rfl
  | transfer input id =>
    rw [Request.call]
    rcases transfer_plan sha256 input id with ⟨e, hp⟩ | ⟨e, hp⟩ | ⟨currency, amount, journal, hch, hp⟩ <;> rw [hp]
    · exact hreply _ trivial
    · trivial
    · exact htransfer _ _ _ _ _ rfl hch
  | reverse transactionId id =>
    rw [Request.call, ReverseService.reverse]
    refine Prog.returns_bind ?_
    have plan : ∀ o, (ReverseService.plan sha256 transactionId id o).Returns P := by
      intro o
      rcases reverse_plan sha256 transactionId id o with hp | ⟨e, hp⟩ | ⟨original, currency, journal, -, hcomp, hp⟩ <;>
        rw [hp]
      · exact hreply _ trivial
      · trivial
      · exact hreverse _ _ _ _ _ hcomp
    intro row
    cases row with
    | none => exact plan none
    | some code => exact fun rows => plan _

/-- A request all of whose ids sort alike as texts and as uuid values. A reversal sends the
ids as the database printed them. -/
def Request.SortAlike : Request → Prop
  | .transfer input _ => MiniLedger.SortAlike [⟨input.from_⟩, ⟨input.to_⟩]
  | _ => True

instance (request : Request) : Decidable request.SortAlike :=
  match request with
  | .transfer input _ => inferInstanceAs (Decidable (MiniLedger.SortAlike [⟨input.from_⟩, ⟨input.to_⟩]))
  | .open_ _ _ _ => .isTrue trivial
  | .reverse _ _ => .isTrue trivial

theorem transfer_follows {input : TransferInput} {id : Uuid} {currency : Currency} {amount : Nat}
    {journal : JournalTransaction} (hch : Checked input id currency amount journal)
    (hsort : ordered → SortAlike [⟨input.from_⟩, ⟨input.to_⟩]) :
    (ledgerRules ordered).Follows (fun _ _ => True) [] (TransferService.body sha256 input currency journal) := by
  have hids : journal.postings.map Posting.accountId = [⟨input.from_⟩, ⟨input.to_⟩] := by rw [hch.postings]; rfl
  refine Rules.follows_bind ?_
  unfold TransferService.run
  cases TransferService.claimedKey input.idempotencyKey with
  | none => exact Rules.follows_bind (post_follows nofun (by rwa [hids]) fun _ _ _ => trivial)
  | some key =>
    refine Rules.follows_bind (Rules.follows_bind ⟨⟨trivial, fun _ _ _ => .inr nofun⟩, fun inserted => ?_⟩)
    cases inserted with
    | true =>
      have hkeys : ∀ r ∈ [Resource.key key], ∃ k, r = .key k := by simp
      refine Rules.follows_bind (post_follows hkeys (by rwa [hids]) fun held' _ hsub => ?_)
      have hkey : .key key ∈ held' := hsub (List.mem_singleton_self _)
      refine Rules.follows_bind ⟨⟨hkey, fun _ r hr => .inl ?_⟩, fun _ => trivial⟩
      rwa [List.mem_singleton.1 hr]
    | false =>
      refine ⟨trivial, fun row => ?_⟩
      cases row with
      | none => trivial
      | some row =>
        change (ledgerRules ordered).Follows _ _ (if row.1 ≠ _ then _ else _)
        split <;> trivial

theorem reverse_follows {transactionId : String} {original : OriginalTransaction} {id : Uuid} {currency : Currency}
    {journal : JournalTransaction} (hcomp : Compensated original id currency journal) :
    (ledgerRules ordered).Follows (fun _ _ => True) [] (ReverseService.body sha256 transactionId journal currency) := by
  refine ⟨trivial, fun row => ?_⟩
  cases row with
  | some u => trivial
  | none =>
    change (ledgerRules ordered).Follows _ [] (Prog.bind (LedgerPoster.post sha256 journal currency _) _)
    refine Rules.follows_bind (post_follows nofun (fun _ a ha b hb hle => ?_) fun _ _ _ => trivial)
    obtain ⟨p, hp, rfl⟩ := List.mem_map.1 ha
    obtain ⟨q, hq, rfl⟩ := List.mem_map.1 hb
    rw [hcomp.postings] at hp hq
    obtain ⟨x, -, rfl⟩ := List.mem_map.1 hp
    obtain ⟨y, -, rfl⟩ := List.mem_map.1 hq
    rw [Uuid.printed_text, Uuid.printed_text]
    exact hle

theorem open_follows {account : Account} (hhandle : account.handle = none) :
    (ledgerRules ordered).Follows (fun _ _ => True) [] (AccountsService.body account) := by
  refine Rules.follows_bind ⟨⟨hhandle, fun _ _ _ => .inr nofun⟩, fun _ => ?_⟩
  refine Rules.follows_bind ⟨⟨trivial, fun _ r hr => .inr fun r' hr' => ?_⟩, fun _ => trivial⟩
  obtain ⟨u, -, rfl⟩ := mem_uuidOf.1 hr
  obtain ⟨v, -, rfl⟩ := mem_uuidOf.1 hr'
  exact Prod.Lex.toLex_lt_toLex.2 (.inl Nat.zero_lt_one)

/-- Every transaction of a request keeps the rules. -/
theorem request_admits (request : Request) (hsort : ordered → request.SortAlike) :
    (ledgerRules ordered).Admits (request.call sha256) := by
  refine request_returns request nofun ?_ ?_ ?_
  · rintro account hhandle body recover ⟨⟩
    exact open_follows hhandle
  · rintro input id currency amount journal rfl hch body recover ⟨⟩
    exact transfer_follows hch hsort
  · rintro transactionId original id currency journal hcomp body recover ⟨⟩
    exact reverse_follows hcomp

/-! ## What becomes of an answer gone stale -/

theorem careful_ofExcept {α : Type} {bad : Tables → α → Prop} (x : Except Failure α) :
    discipline.Careful bad (Prog.ofExcept x : InTx α) := by
  cases x <;> trivial

/-- An account that was not there when it was read leaves its mark on the list. -/
theorem careful_findAccounts (ids : List AccountId) :
    discipline.Careful (fun _ accounts => none ∈ accounts) (LedgerPoster.findAccounts ids) := by
  induction ids with
  | nil => trivial
  | cons id ids ih =>
    have next : ∀ o : Option Account, discipline.Careful (fun _ accounts => none ∈ accounts)
        ((LedgerPoster.findAccounts ids).bind fun accounts => .pure (o :: accounts)) := fun o =>
      Discipline.careful_bind ih (fun _ => trivial) fun _ _ h => List.mem_cons_of_mem _ h
    intro row
    cases row with
    | none =>
      refine ⟨next none, fun db _ => ?_⟩
      change discipline.Doomed db _ (Prog.bind (LedgerPoster.findAccounts ids) _)
      exact Discipline.doomed_bind (Discipline.doomed_of_forall (fun accounts => List.mem_cons_self ..) _)
    | some e =>
      obtain ⟨u, row⟩ := e
      refine ⟨?_, nofun⟩
      change discipline.Careful _ (Prog.bind (Prog.lift (Prog.bind (Prog.ofExcept (AccountsRepository.toDomain u row)) _)) _)
      cases AccountsRepository.toDomain u row with
      | error e => trivial
      | ok a => exact next (some a)

theorem careful_lockEach {bad : Tables → Keyed String BalanceRow → Prop} (ids : List String)
    (start : Keyed String BalanceRow) : discipline.Careful bad (AccountBalancesRepository.lockEach ids start) := by
  induction ids generalizing start with
  | nil => trivial
  | cons id ids ih =>
    intro row
    cases row with
    | none => exact ⟨trivial, fun _ _ => trivial⟩
    | some row => exact ⟨ih _, nofun⟩

theorem careful_append {bad : Tables → Unit → Prop} (journal : JournalTransaction) (lines : List PostingLine)
    (reverses : Option String) :
    discipline.Careful bad (JournalTransactionsRepository.append journal lines reverses) := by
  have careful_insertEach : ∀ values : List PostingValues,
      discipline.Careful bad (JournalTransactionsRepository.insertEach values) := by
    intro values
    induction values with
    | nil => trivial
    | cons v values ih => exact fun _ => ⟨ih, nofun⟩
  have careful_insertPostings : ∀ values : List PostingValues,
      discipline.Careful bad (JournalTransactionsRepository.insertPostings values) := by
    intro values
    have never : ∀ (db : Tables) (a : Unit), False →
        discipline.Doomed db (bad db) (JournalTransactionsRepository.insertEach values) := nofun
    exact Discipline.careful_bind (careful_ofExcept _) (fun _ => careful_insertEach values) never
  unfold JournalTransactionsRepository.append
  split
  · trivial
  · exact fun _ => ⟨careful_insertPostings _, nofun⟩

theorem careful_updateBalances {bad : Tables → Unit → Prop} (entries : List (String × BalanceRow)) :
    discipline.Careful bad (LedgerPoster.updateBalances entries) := by
  induction entries with
  | nil => trivial
  | cons e entries ih => exact fun _ => ⟨ih, nofun⟩

section

variable (journal : JournalTransaction) (currency : Currency)

theorem careful_post (options : PostOptions) :
    discipline.Careful (fun _ _ => False) (LedgerPoster.post sha256 journal currency options) := by
  have never : ∀ {α : Type} (f : α → InTx TransferReceipt) (db : Tables) (a : α), False →
      discipline.Doomed db (fun _ => False) (f a) := nofun
  refine Discipline.careful_bind (careful_findAccounts _) (fun accounts => ?_) fun db accounts hnone => ?_
  · refine Discipline.careful_bind (careful_ofExcept _) (fun involved => ?_) (never _)
    refine Discipline.careful_bind (careful_ofExcept _) (fun _ => ?_) (never _)
    refine Discipline.careful_bind (careful_lockEach _ _) (fun locked => ?_) (never _)
    refine Discipline.careful_bind (careful_ofExcept _) (fun legs => ?_) (never _)
    refine Discipline.careful_bind (careful_append _ _ _) (fun _ => ?_) (never _)
    refine Discipline.careful_bind (careful_updateBalances _) (fun _ => ?_) (never _)
    exact fun _ => ⟨trivial, nofun⟩
  · obtain ⟨e, he⟩ := LedgerPoster.collect_none hnone
    change discipline.Doomed db _ (Prog.bind (Prog.ofExcept (LedgerPoster.collect currency accounts _)) _)
    rw [he]
    trivial

/-- A transaction that reverses what is reversed already does not return. -/
theorem doomed_post {db : Tables} {transactionId : String} {u : Uuid} (hu : Uuid.parse? transactionId = some u)
    (hrev : (db.reversalOf u).isSome) : discipline.Doomed db (fun _ => False)
      (LedgerPoster.post sha256 journal currency (reverseOptions transactionId)) := by
  have step : ∀ {α : Type} {p : InTx α} {f : α → InTx TransferReceipt},
      (∀ a, discipline.Doomed db (fun _ => False) (f a)) → discipline.Doomed db (fun _ => False) (p.bind f) :=
    fun h => Discipline.doomed_bind (Discipline.doomed_of_forall h _)
  refine step fun accounts => step fun involved => step fun _ => step fun locked => step fun legs => ?_
  change discipline.Doomed db _ (Prog.bind (JournalTransactionsRepository.append journal legs.lines _) _)
  refine Discipline.doomed_bind ?_
  unfold JournalTransactionsRepository.append
  split
  · trivial
  · exact .inl ⟨transactionId, u, rfl, hu, hrev⟩

end

theorem careful_transfer (input : TransferInput) (currency : Currency) (journal : JournalTransaction) :
    discipline.Careful (fun _ _ => False) (TransferService.body sha256 input currency journal) := by
  have never : ∀ {α : Type} (f : α → InTx (Option TransferReceipt)) (db : Tables) (a : α), False →
      discipline.Doomed db (fun _ => False) (f a) := nofun
  suffices run : discipline.Careful (fun _ _ => False) (TransferService.run sha256 journal currency input.ownerId
      input.idempotencyKey (TransferService.fingerprint sha256 input)) from
    Discipline.careful_bind run (fun _ => trivial) nofun
  unfold TransferService.run
  cases TransferService.claimedKey input.idempotencyKey with
  | none => exact Discipline.careful_bind (careful_post _ _ _) (fun _ => trivial) (never _)
  | some key =>
    intro inserted
    refine ⟨?_, nofun⟩
    cases inserted with
    | true =>
      change discipline.Careful _ (Prog.bind (LedgerPoster.post sha256 journal currency _) _)
      refine Discipline.careful_bind (careful_post _ _ _) (fun receipt => ?_) (never _)
      exact fun _ => ⟨trivial, nofun⟩
    | false =>
      intro row
      cases row with
      | none => exact ⟨trivial, fun _ _ => trivial⟩
      | some row =>
        refine ⟨?_, nofun⟩
        change discipline.Careful _ (if row.1 ≠ _ then _ else _)
        split <;> trivial

theorem careful_reverse (transactionId : String) (journal : JournalTransaction) (currency : Currency) :
    discipline.Careful (fun _ _ => False) (ReverseService.body sha256 transactionId journal currency) := by
  intro row
  cases row with
  | some u => exact ⟨trivial, nofun⟩
  | none =>
    refine ⟨?_, fun db hstale => ?_⟩
    · change discipline.Careful _ (Prog.bind (LedgerPoster.post sha256 journal currency _) _)
      exact Discipline.careful_bind (careful_post _ _ _) (fun _ => trivial) nofun
    · obtain ⟨-, u, hu, hrev⟩ := hstale
      change discipline.Doomed db _ (Prog.bind (LedgerPoster.post sha256 journal currency (reverseOptions transactionId)) _)
      exact Discipline.doomed_bind (doomed_post journal currency hu hrev)

/-! ## The reads before the transaction -/

/-- A transaction once read stays as it is: its journal is there for good, and nobody adds
to its postings. -/
theorem steady_reverse (transactionId : String) (id : Uuid) :
    discipline.Steady (ReverseService.reverse sha256 transactionId id) := by
  intro row
  cases row with
  | none =>
    refine ⟨trivial, .inr ?_⟩
    rintro body recover ⟨⟩
  | some code =>
    refine ⟨fun rows => ⟨?_, ?_⟩, .inl fun db held' ws' _ h' ha => ?_⟩
    · rcases reverse_plan sha256 transactionId id (some ⟨code, rows⟩) with hp | ⟨e, hp⟩ | ⟨_, _, _, -, -, hp⟩
      all_goals
        change discipline.Steady (ReverseService.plan sha256 transactionId id (some ⟨code, rows⟩))
        rw [hp]
        trivial
    · cases rows with
      | nil =>
        -- a journal without postings cannot be compensated
        refine .inr ?_
        change Inert (ReverseService.plan sha256 transactionId id (some ⟨code, []⟩))
        rcases reverse_plan sha256 transactionId id (some ⟨code, []⟩) with hp | ⟨e, hp⟩ | ⟨_, _, journal, ho, hcomp, hp⟩
        · rw [hp]; rintro body recover ⟨⟩
        · rw [hp]; trivial
        · cases ho
          exact absurd hcomp.postings journal.nonempty
      | cons p rows =>
        refine .inl fun db held' ws' hsound h' ha => ?_
        simp only [Query.answer, except_bind_ok, castUuid_ok, except_pure_ok] at ha ⊢
        obtain ⟨u, hu, hrows⟩ := ha
        refine ⟨u, hu, hrows.trans ?_⟩
        have hne : db.postingsOf u ≠ [] := by
          intro hnil
          rw [hnil] at hrows
          cases hrows
        obtain ⟨q, hq⟩ := List.exists_mem_of_ne_nil _ hne
        obtain ⟨hq, hqu⟩ := List.mem_filter.1 hq
        have hjournal := hsound q hq
        rw [of_decide_eq_true hqu] at hjournal
        have hnone : (ws'.filterMap Write.posting?).filter (fun p => decide (p.transactionId = u)) = [] := by
          refine List.filter_eq_nil_iff.2 fun p hp hpu => ?_
          have hheld := (h'.covered _ (mem_postings.1 hp)).1
          rw [of_decide_eq_true hpu] at hheld
          rw [(h'.newJournal u hheld).1] at hjournal
          cases hjournal
        rw [Tables.postingsOf, Tables.postingsOf, view_postings, List.filter_append, hnone, List.append_nil]
    · simp only [Query.answer, except_bind_ok, castUuid_ok, except_pure_ok] at ha ⊢
      obtain ⟨u, hu, hrow⟩ := ha
      refine ⟨u, hu, hrow.trans ?_⟩
      obtain ⟨row, hget⟩ : ∃ row, db.journals.get? u = some row := by
        cases hg : db.journals.get? u with
        | none => rw [hg] at hrow; cases hrow
        | some row => exact ⟨row, rfl⟩
      rw [hget, h'.journal_some hget]

/-- What a request answers without a commit is an error. -/
theorem request_otherwise (request : Request) :
    Otherwise (fun x => ∀ r : Reply, x = .ok r → r.Refused) (request.call sha256) := by
  constructor
  · rintro e r ⟨⟩
  apply request_returns
  · rintro r hr
    constructor
    · rintro _ ⟨⟩ _ ⟨⟩; exact hr
    · rintro _ _ ⟨⟩
  · rintro account -
    constructor
    · rintro _ ⟨⟩
    · rintro _ _ ⟨⟩ e r ⟨⟩
  · rintro input id currency amount journal - -
    constructor
    · rintro _ ⟨⟩
    rintro _ _ ⟨⟩ e r hr
    unfold TransferService.recover at hr
    split at hr <;> cases hr <;> trivial
  · rintro transactionId original id currency journal -
    constructor
    · rintro _ ⟨⟩
    rintro _ _ ⟨⟩ e r hr
    unfold ReverseService.recover at hr
    split at hr
    · cases hr; trivial
    · split at hr <;> cases hr
      trivial

theorem good_of {body : InTx Reply} (hf : (ledgerRules False).Follows (fun _ _ => True) [] body)
    (hc : discipline.Careful (fun _ _ => False) body) : discipline.Good body :=
  ⟨hf.weaken (fun _ h => h) fun _ _ h => h.1, hc⟩

/-- **Every request keeps the discipline.** -/
theorem request_disciplined (request : Request) : discipline.Disciplined (request.call sha256) := by
  constructor
  · cases request with
    | open_ input id now =>
      rw [Request.call, AccountsService.open_]
      split <;> trivial
    | transfer input id =>
      rw [Request.call]
      rcases transfer_plan sha256 input id with ⟨e, hp⟩ | ⟨e, hp⟩ | ⟨_, _, _, -, hp⟩ <;> rw [hp] <;> trivial
    | reverse transactionId id => exact steady_reverse transactionId id
  · refine request_returns request nofun ?_ ?_ ?_
    · rintro account hhandle body recover ⟨⟩
      exact good_of (open_follows hhandle) fun _ => ⟨fun _ => ⟨trivial, nofun⟩, nofun⟩
    · rintro input id currency amount journal - hch body recover ⟨⟩
      exact good_of (transfer_follows hch nofun) (careful_transfer input currency journal)
    · rintro transactionId original id currency journal hcomp body recover ⟨⟩
      exact good_of (reverse_follows hcomp) (careful_reverse transactionId journal currency)

/-! ## Interleaved runs -/

section

variable {ι : Type} [DecidableEq ι] [Fintype ι] {requests : ι → Request} {w : postgres.World}
  {c d : Config postgres ι Reply} {P : Tables → Request → Prop}

theorem reaches_lawful (hw : Reachable sha256 P w) (h : Reaches (Config.start w fun i => (requests i).call sha256) c) :
    c.Lawful discipline fun i => (requests i).call sha256 :=
  h.lawful hw.sound fun _ => request_disciplined _

/-- What every commit keeps holds of the committed tables of every interleaving. -/
theorem reaches_invariant {motive : Tables → Prop} (hw : Reachable sha256 P w)
    (h : Reaches (Config.start w fun i => (requests i).call sha256) c) (h0 : motive w.db)
    (step : ∀ {db request r ws}, motive db → Committed sha256 db request r ws → motive (postgres.view db ws)) : motive c.db :=
  (h.chronicle (D := discipline) hw.sound fun _ => request_disciplined _).invariant h0
    fun hi hc => step hi (request_commits hc)

/-- What every commit keeps still holds later in the same run. -/
theorem reaches_keeps {motive : Tables → Prop} (hw : Reachable sha256 P w)
    (h : Reaches (Config.start w fun i => (requests i).call sha256) c) (h' : Reaches c d) (h0 : motive c.db)
    (step : ∀ {db request r ws}, motive db → Committed sha256 db request r ws → motive (postgres.view db ws)) : motive d.db := by
  refine (h'.invariant (P := fun d => d.Lawful discipline _ ∧ motive d.db) ⟨reaches_lawful hw h, h0⟩ ?_).2
  rintro d e i ⟨hl, hi⟩ hstep
  refine ⟨hl.step (fun _ => request_disciplined _) hstep, ?_⟩
  cases hstep with
  | commit body recover told r ws held hp hs => exact step hi (request_commits (hl.commits hp hs).1)
  | _ => exact hi

/-- The step with which a call returns something else than a refusal is its commit. -/
theorem step_returns (hw : Reachable sha256 P w) (h : Reaches (Config.start w fun i => (requests i).call sha256) c)
    {i : ι} (hstep : Step c i d) {r : Reply} (hdone : d.phase i = .done (.ok r)) (hr : ¬ r.Refused) :
    ∃ ws, Committed sha256 c.db (requests i) r ws ∧ d = c.commit i r ws := by
  have houtcome := h.outcome fun i => @request_otherwise sha256 (requests i)
  have hi := houtcome.1 i
  have hi' := (outcome_step houtcome hstep).1 i
  rw [hdone] at hi'
  -- without a commit the reply would be a refusal
  have unlogged : d.log = c.log → (∀ e ∈ c.log, e.session ≠ i) → False := by
    intro hlog hnone
    rcases hi' with ⟨hrefused, -⟩ | ⟨e, he, hsession, -⟩
    · exact hr (hrefused r rfl)
    · exact hnone e (hlog ▸ he) hsession
  have moved : ∀ ph : Phase postgres Reply, (∀ r, ph ≠ .done r) → Function.update c.phase i ph i ≠ .done (.ok r) := by
    intro ph hph
    rw [Function.update_self]
    exact hph _
  cases hstep with
  | reply p r' hp => rw [hp] at hi; exact (unlogged rfl hi.2).elim
  | refused q k e hp => rw [hp] at hi; exact (unlogged rfl hi.2).elim
  | rollback body recover told p ws held e n hp => rw [hp] at hi; exact (unlogged rfl hi.2).elim
  | read => exact absurd hdone (moved _ nofun)
  | begin => exact absurd hdone (moved _ nofun)
  | query => exact absurd hdone (moved _ nofun)
  | stmt => exact absurd hdone (moved _ nofun)
  | commit body recover told r' ws held hp hs =>
    simp only [Config.commit, Function.update_self] at hdone
    cases hdone
    exact ⟨ws, request_commits ((reaches_lawful hw h).commits hp hs).1, rfl⟩

end

end MiniLedger
