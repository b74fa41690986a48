import MiniLedger.Ledger.Recorded
import MiniLedger.Ledger.ReversalRace
import MiniLedger.Ledger.Serial
import MiniLedger.Sessions.Linearization

/-!
# Every answer was true at one moment

A refusal is decided by reads that lock nothing, so the tables it was decided on may be gone
when the caller is told. Still there was a moment, between the first and the last statement
of the call, at which the call served alone would have been answered the same. Only a
reversal overtaken by another of the same transaction has no such moment.
-/

namespace MiniLedger

open Collections Sessions

variable {sha256 : String → String} {request : Request}

/-! ## Errors do not depend on the sequence -/

theorem except_bind_error {ε α β : Type} {x : Except ε α} {f : α → Except ε β} {e : ε} :
    (x >>= f) = .error e ↔ x = .error e ∨ ∃ a, x = .ok a ∧ f a = .error e := by
  cases x <;> simp [bind, Except.bind]

theorem except_pure_error {ε α : Type} {a : α} {e : ε} : (pure a : Except ε α) = .error e ↔ False := by
  simp [pure, Except.pure]

theorem Alike.symm {t t' : Tables} (h : Alike t t') : Alike t' t :=
  ⟨h.accounts.symm, h.balances.symm, h.journals.symm, h.keys.symm, h.outbox.symm, h.postings.symm, h.entrySize.symm⟩

theorem Alike.exec_error {t t' : Tables} {s : Stmt} {n : Nat} {e : Failure} (n' : Nat) (h : Alike t t')
    (hx : Stmt.exec s n t = .error e) : Stmt.exec s n' t' = .error e := by
  have taken : ∀ handle code, t'.handleTaken handle code = t.handleTaken handle code := fun handle code => by
    rw [Tables.handleTaken, h.accounts]
    rfl
  cases s with
  | insertPosting v =>
    simp only [Stmt.exec, h.accounts, h.journals, except_bind_error, except_pure_error, and_false, exists_false,
      or_false] at hx ⊢
    exact hx
  | _ =>
    simp only [Stmt.exec, h.accounts, h.balances, h.journals, h.keys, h.reversalOf, taken, h.entrySize] at hx ⊢
    exact hx

/-- Errors tell no numbers apart either. -/
theorem likeness_exact : likeness.Exact where
  refl := .refl
  exec_error n' h hx := h.exec_error n' hx
  settle_error {t t' ws ws' e} h hws he := by
    have code : ∀ {t : Tables} {ws : List Write} {e : Failure}, t.balanced ws = .error e → e = .query ⟨"23514", none⟩ := by
      intro t ws e he
      rw [Tables.balanced, require] at he
      split at he <;> cases he
      rfl
    cases hs : postgres.settle t' ws' with
    | ok u =>
      have hback : List.Forall₂ (fun w w' : Write => w'.unnumbered = w.unnumbered) ws' ws :=
        (List.Forall₂.flip hws).imp fun _ _ h => h.symm
      cases he.symm.trans (h.symm.balanced hback hs)
    | error e' => rw [code he, code hs]

/-! ## What a request may be told that is not so later -/

/-- Only a reversal looks for a reversal, and for that of its own transaction. -/
def asks (request : Request) : Query → Prop
  | .reversalOf transactionId => ∃ id, request = .reverse transactionId id
  | _ => True

/-- An answer of absence, but for that of a reversal. -/
def Risk : Obs sql → Prop
  | .row (.account _) row => row = none
  | .row (.key _) row => row = none
  | .ans (.lockBalance _) row => row = none
  | _ => False

/-- Account rows can be read back. -/
def Sane (t : Tables) : Prop := ∀ u row, t.accounts.get? u = some row → row.currency ∈ Currency.codes

def SaneWrite : Write → Prop
  | .account _ row => row.currency ∈ Currency.codes
  | _ => True

def caution (request : Request) : Caution postgres where
  asks := asks request
  risk := Risk
  Sane := Sane
  SaneWrite := SaneWrite
  sane_apply {t w} ht hw u row hrow := by
    cases w with
    | account id new =>
      have hrow : (t.accounts.set id new).get? u = some row := hrow
      rw [Keyed.get?_set] at hrow
      split at hrow
      · cases hrow
        exact hw
      · exact ht u row hrow
    | _ => exact ht u row hrow

/-- Only an insert of an account writes an account. -/
theorem saneWrite_exec (s : Stmt) (hs : ∀ v, s ≠ .insertAccount v) (n : Nat) {t : Tables} {ans : s.Ans} {new : List Write}
    (hx : Stmt.exec s n t = .ok (ans, new)) : ∀ w ∈ new, SaneWrite w := by
  cases s with
  | insertAccount v => exact absurd rfl (hs v)
  | insertBalance a =>
    obtain ⟨id, -, -, -, rfl⟩ := exec_insertBalance.1 hx
    simp [SaneWrite]
  | lockBalance a =>
    obtain ⟨id, -, -, rfl⟩ := (exec_lockBalance (n := n)).1 hx
    simp
  | updateBalance a x c =>
    obtain ⟨id, -, -, rfl⟩ := (exec_updateBalance (n := n)).1 hx
    split <;> simp [SaneWrite]
  | insertJournal v =>
    obtain ⟨id, -, target, -, code, -, -, -, -, rfl⟩ := (exec_insertJournal (n := n)).1 hx
    simp [SaneWrite]
  | insertPosting v =>
    obtain ⟨tid, -, aid, -, -, -, -, -, rfl⟩ := exec_insertPosting.1 hx
    simp [SaneWrite]
  | insertKey k f =>
    obtain ⟨-, hx⟩ := (exec_insertKey (n := n)).1 hx
    split at hx
    · obtain ⟨-, rfl⟩ := hx; simp
    · obtain ⟨-, -, rfl⟩ := hx; simp [SaneWrite]
  | completeKey k i r =>
    obtain ⟨_, -, -, ⟨-, rfl⟩ | ⟨_, -, -, rfl⟩⟩ := (exec_completeKey (n := n)).1 hx <;> simp [SaneWrite]
  | insertOutbox ty p =>
    obtain rfl := (exec_insertOutbox (n := n) (t := t)).1 hx
    simp [SaneWrite]

/-! ## The programs are wary -/

section

variable {α β : Type}

theorem wary_ofExcept (x : Except Failure α) : (caution request).Wary (Prog.ofExcept x : InTx α) := by
  cases x <;> trivial

/-- A statement other than an insert of an account, none of whose answers is at risk. -/
theorem wary_send {s : Stmt} (hs : ∀ v, s ≠ .insertAccount v) (hrisk : ∀ ans, ¬ Risk (.ans s ans)) :
    (caution request).Wary (send s) :=
  ⟨fun n _ _ _ hx => saneWrite_exec s hs n hx, fun ans => ⟨fun h => absurd h (hrisk ans), trivial⟩⟩

/-- On sane tables an account whose id is a uuid can be read. -/
theorem account_answer {id : AccountId} {u : Uuid} (hu : Uuid.parse? id.value = some u) (t : Tables) :
    Query.answer (.account id.value) t = .ok ((t.accounts.get? u).map fun row => (u, row)) := by
  simp only [Query.answer, castUuid_ok.2 hu, bind, Except.bind, pure, Except.pure]

theorem toDomain_sane {t : Tables} (ht : Sane t) {u : Uuid} {row : AccountRow} (hrow : t.accounts.get? u = some row) :
    ∃ account, AccountsRepository.toDomain u row = .ok account := by
  obtain ⟨currency, hof, -⟩ := Currency.of_supported (ht u row hrow)
  rw [AccountsRepository.toDomain, hof]
  exact ⟨_, rfl⟩

theorem throws_findAccounts {e : Failure} {ids : List AccountId} (hids : ∀ id ∈ ids, ∃ u, Uuid.parse? id.value = some u)
    {f : List (Option Account) → InTx β} (hf : ∀ accounts, (caution request).Throws e (f accounts)) :
    (caution request).Throws e ((LedgerPoster.findAccounts ids).bind f) := by
  induction ids generalizing f with
  | nil => exact hf []
  | cons id ids ih =>
    rw [List.forall_mem_cons] at hids
    obtain ⟨u, hu⟩ := hids.1
    have next : ∀ o : Option Account, (caution request).Throws e
        (((LedgerPoster.findAccounts ids).bind fun accounts => .pure (o :: accounts)).bind f) := by
      intro o
      rw [Prog.bind_assoc]
      exact ih hids.2 fun accounts => hf (o :: accounts)
    intro t ht
    refine ⟨_, account_answer hu t, ?_⟩
    cases hrow : t.accounts.get? u with
    | none => exact next none
    | some row =>
      obtain ⟨account, haccount⟩ := toDomain_sane ht hrow
      show (caution request).Throws e (Prog.bind (Prog.bind (Prog.lift (Prog.bind (Prog.ofExcept
        (AccountsRepository.toDomain u row)) _)) _) f)
      rw [haccount]
      exact next (some account)

/-- Whatever follows the reads of the accounts, one that is missing decides it. -/
theorem wary_findAccounts {ids : List AccountId} (hids : ∀ id ∈ ids, ∃ u, Uuid.parse? id.value = some u)
    {f : List (Option Account) → InTx β} (hf : ∀ accounts, (caution request).Wary (f accounts))
    (hnone : ∀ before, ∃ e, ∀ after, (caution request).Throws e (f (before ++ none :: after))) :
    (caution request).Wary ((LedgerPoster.findAccounts ids).bind f) := by
  induction ids generalizing f with
  | nil => exact hf []
  | cons id ids ih =>
    rw [List.forall_mem_cons] at hids
    have next : ∀ o : Option Account, (caution request).Wary
        (((LedgerPoster.findAccounts ids).bind fun accounts => .pure (o :: accounts)).bind f) := by
      intro o
      rw [Prog.bind_assoc]
      exact ih hids.2 (f := fun accounts => f (o :: accounts)) (fun accounts => hf _) fun before => hnone (o :: before)
    refine ⟨trivial, fun row => ?_⟩
    cases row with
    | none =>
      refine ⟨fun _ => ?_, next none⟩
      obtain ⟨e, he⟩ := hnone []
      refine ⟨e, ?_⟩
      show (caution request).Throws e (((LedgerPoster.findAccounts ids).bind fun accounts => .pure (none :: accounts)).bind f)
      rw [Prog.bind_assoc]
      exact throws_findAccounts hids.2 he
    | some found =>
      obtain ⟨u, row⟩ := found
      refine ⟨nofun, ?_⟩
      show (caution request).Wary (Prog.bind (Prog.bind (Prog.lift (Prog.bind (Prog.ofExcept
        (AccountsRepository.toDomain u row)) _)) _) f)
      cases AccountsRepository.toDomain u row with
      | error e => trivial
      | ok account => exact next (some account)

end

/-- The first account that is missing or in another currency decides the error. -/
theorem LedgerPoster.collect_decided (currency : Currency) (before : List (Option Account)) (start : Involved) :
    ∃ e, ∀ after, collect currency (before ++ none :: after) start = .error e := by
  induction before generalizing start with
  | nil => exact ⟨_, fun _ => rfl⟩
  | cons o before ih =>
    cases o with
    | none => exact ⟨_, fun _ => rfl⟩
    | some account =>
      by_cases hcurrency : account.currency.equals currency
      · obtain ⟨e, he⟩ := ih _
        refine ⟨e, fun after => ?_⟩
        rw [List.cons_append, collect, if_neg (not_not_intro hcurrency)]
        exact he after
      · refine ⟨.posting .accountCurrencyMismatch, fun after => ?_⟩
        rw [List.cons_append, collect, if_pos hcurrency]

theorem wary_lockEach (ids : List String) (start : Keyed String BalanceRow) :
    (caution request).Wary (AccountBalancesRepository.lockEach ids start) := by
  induction ids generalizing start with
  | nil => trivial
  | cons id ids ih =>
    refine ⟨fun n _ _ _ hx => saneWrite_exec (.lockBalance id) nofun n hx, fun row => ?_⟩
    cases row with
    | none => exact ⟨fun _ => ⟨_, rfl⟩, trivial⟩
    | some row => exact ⟨nofun, ih _⟩

theorem wary_append (journal : JournalTransaction) (lines : List PostingLine) (reverses : Option String) :
    (caution request).Wary (JournalTransactionsRepository.append journal lines reverses) := by
  have postings : ∀ values : List PostingValues, (caution request).Wary (JournalTransactionsRepository.insertPostings values) := by
    intro values
    refine Caution.wary_bind (wary_ofExcept _) fun _ => ?_
    induction values with
    | nil => trivial
    | cons v values ih => exact Caution.wary_bind (wary_send nofun fun _ => False.elim) fun _ => ih
  unfold JournalTransactionsRepository.append
  split
  · trivial
  · exact Caution.wary_bind (wary_send nofun fun _ => False.elim) fun _ => postings _

theorem wary_updateBalances (entries : List (String × BalanceRow)) :
    (caution request).Wary (LedgerPoster.updateBalances entries) := by
  induction entries with
  | nil => trivial
  | cons e entries ih => exact Caution.wary_bind (wary_send nofun fun _ => False.elim) fun _ => ih

theorem wary_post {journal : JournalTransaction} {currency : Currency} {options : PostOptions}
    (hids : ∀ p ∈ journal.postings, ∃ u, Uuid.parse? p.accountId.value = some u) :
    (caution request).Wary (LedgerPoster.post sha256 journal currency options) := by
  refine wary_findAccounts (fun id hid => ?_) (fun accounts => ?_) fun before => ?_
  · obtain ⟨p, hp, rfl⟩ := List.mem_map.1 hid
    exact hids p hp
  · refine Caution.wary_bind (wary_ofExcept _) fun involved => ?_
    refine Caution.wary_bind (wary_ofExcept _) fun _ => ?_
    refine Caution.wary_bind (wary_lockEach _ _) fun locked => ?_
    refine Caution.wary_bind (wary_ofExcept _) fun legs => ?_
    refine Caution.wary_bind (wary_append _ _ _) fun _ => ?_
    refine Caution.wary_bind (wary_updateBalances _) fun _ => ?_
    exact Caution.wary_bind (wary_send nofun fun _ => False.elim) fun _ => trivial
  · obtain ⟨e, he⟩ := LedgerPoster.collect_decided currency before ⟨Keyed.empty, Keyed.empty⟩
    refine ⟨e, fun after => ?_⟩
    rw [he after]
    rfl

theorem wary_transfer {input : TransferInput} {id : Uuid} {currency : Currency} {amount : Nat}
    {journal : JournalTransaction} (hch : Checked input id currency amount journal) (ha : input.Admitted) :
    (caution request).Wary (TransferService.body sha256 input currency journal) := by
  have hids : ∀ p ∈ journal.postings, ∃ u, Uuid.parse? p.accountId.value = some u := by
    rw [hch.postings]
    intro p hp
    obtain rfl | rfl := List.mem_pair.1 hp
    · exact parse?_of_isUuid ha.1
    · exact parse?_of_isUuid ha.2.1
  have post : (caution request).Wary (TransferService.postTransfer sha256 journal currency input.ownerId) := wary_post hids
  refine Caution.wary_bind ?_ fun _ => trivial
  unfold TransferService.run
  cases TransferService.claimedKey input.idempotencyKey with
  | none => exact Caution.wary_bind post fun _ => trivial
  | some key =>
    refine ⟨fun n _ _ _ hx => saneWrite_exec (.insertKey key _) nofun n hx, fun inserted => ⟨False.elim, ?_⟩⟩
    cases inserted with
    | true =>
      show (caution request).Wary (Prog.bind (TransferService.postTransfer sha256 journal currency input.ownerId) _)
      exact Caution.wary_bind post fun _ => Caution.wary_bind (wary_send nofun fun _ => False.elim) fun _ => trivial
    | false =>
      refine ⟨trivial, fun row => ?_⟩
      cases row with
      | none => exact ⟨fun _ => ⟨_, rfl⟩, trivial⟩
      | some row =>
        refine ⟨nofun, ?_⟩
        show (caution request).Wary (if row.1 ≠ _ then _ else _)
        split <;> trivial

theorem wary_reverse {transactionId : String} {original : OriginalTransaction} {id id' : Uuid} {currency : Currency}
    {journal : JournalTransaction} (hcomp : Compensated original id currency journal) :
    (caution (.reverse transactionId id')).Wary (ReverseService.body sha256 transactionId journal currency) := by
  have hids : ∀ p ∈ journal.postings, ∃ u, Uuid.parse? p.accountId.value = some u := by
    rw [hcomp.postings]
    intro p hp
    obtain ⟨q, -, rfl⟩ := List.mem_map.1 hp
    exact ⟨q.1, q.1.parse?_text⟩
  refine ⟨⟨id', rfl⟩, fun row => ⟨nofun, ?_⟩⟩
  cases row with
  | some u => trivial
  | none =>
    show (caution _).Wary (Prog.bind (LedgerPoster.post sha256 journal currency (reverseOptions transactionId)) _)
    exact Caution.wary_bind (wary_post hids) fun _ => trivial

theorem wary_open {account : Account} (hcode : ∀ code, account.currency.code = some code → code ∈ Currency.codes) :
    (caution request).Wary (AccountsService.body account) := by
  refine ⟨fun n t ans new hx w hw => ?_, fun _ => ⟨nofun, ?_⟩⟩
  swap
  · show (caution request).Wary (Prog.bind (AccountBalancesRepository.initialize_ account.id) _)
    exact Caution.wary_bind (wary_send nofun fun _ => False.elim) fun _ => trivial
  obtain ⟨id, -, -, -, -, code, hcurrency, -, -, -, rfl⟩ := (exec_insertAccount (n := n)).1 hx
  rw [List.mem_singleton.1 hw]
  exact hcode code hcurrency

/-! ## The reads before the transaction -/

theorem lasting_journal {transactionId code : String} :
    Caution.Lasting (I := sql) discipline (.journal transactionId) (some code) := by
  intro db held ws _ h ha
  simp only [Query.answer, except_bind_ok, castUuid_ok, except_pure_ok] at ha ⊢
  obtain ⟨u, hu, hrow⟩ := ha
  refine ⟨u, hu, hrow.trans ?_⟩
  cases hg : db.journals.get? u with
  | none =>
    rw [hg] at hrow
    cases hrow
  | some row => rw [h.journal_some hg]

/-- Nobody adds to the postings of a transaction. -/
theorem lasting_postingsOf {transactionId : String} {rows : List (Uuid × Int)} (hne : rows ≠ []) :
    Caution.Lasting (I := sql) discipline (.postingsOf transactionId) rows := by
  intro db held ws hsound h ha
  simp only [Query.answer, except_bind_ok, castUuid_ok, except_pure_ok] at ha ⊢
  obtain ⟨u, hu, hrows⟩ := ha
  refine ⟨u, hu, hrows.trans ?_⟩
  have hjournal : (db.journals.get? u).isSome := by
    obtain ⟨q, hq⟩ := List.exists_mem_of_ne_nil (db.postingsOf u) (by rintro hnil; rw [hnil] at hrows; exact hne hrows)
    obtain ⟨hq, hqu⟩ := List.mem_filter.1 hq
    have hjournal := hsound q hq
    rwa [of_decide_eq_true hqu] at hjournal
  have hnone : (ws.filterMap Write.posting?).filter (fun p => decide (p.transactionId = u)) = [] := by
    refine List.filter_eq_nil_iff.2 fun p hp hpu => ?_
    have hheld := (h.covered _ (mem_postings.1 hp)).1
    rw [of_decide_eq_true hpu] at hheld
    rw [(h.newJournal u hheld).1] at hjournal
    cases hjournal
  rw [Tables.postingsOf, Tables.postingsOf, view_postings, List.filter_append, hnone, List.append_nil]

theorem waryCall_plan (transactionId : String) (id : Uuid) (o : Option OriginalTransaction) :
    (caution (.reverse transactionId id)).WaryCall discipline (ReverseService.plan sha256 transactionId id o) := by
  obtain hp | ⟨e, hp⟩ | ⟨_, _, _, -, hcomp, hp⟩ := reverse_plan sha256 transactionId id o <;> rw [hp]
  · trivial
  · trivial
  · exact wary_reverse hcomp

/-- **Every request is wary.** -/
theorem request_wary (ha : request.Admitted) : (caution request).WaryCall discipline (request.call sha256) := by
  cases request with
  | open_ input id now =>
    rw [Request.call, AccountsService.open_]
    split
    · trivial
    · rename_i currency hof
      refine wary_open fun code hcode => ?_
      obtain ⟨hm, hcode'⟩ | ⟨-, hcode'⟩ := Currency.of_cases hof
      · cases hcode.symm.trans hcode'
        exact hm
      · cases hcode.symm.trans hcode'
  | transfer input id =>
    rw [Request.call]
    obtain ⟨e, hp⟩ | ⟨e, hp⟩ | ⟨_, _, _, hch, hp⟩ := transfer_plan sha256 input id <;> rw [hp]
    · trivial
    · trivial
    · exact wary_transfer hch ha
  | reverse transactionId id =>
    intro row
    cases row with
    | none => exact ⟨.inr ⟨_, rfl⟩, trivial⟩
    | some code =>
      refine ⟨.inl lasting_journal, fun rows => ⟨?_, waryCall_plan transactionId id (some ⟨code, rows⟩)⟩⟩
      cases rows with
      | cons p rows => exact .inl (lasting_postingsOf (List.cons_ne_nil _ _))
      | nil =>
        -- a journal without postings cannot be compensated
        refine .inr ?_
        show ∃ x, Caution.Over x (ReverseService.plan sha256 transactionId id (some ⟨code, []⟩))
        obtain hp | ⟨e, hp⟩ | ⟨_, _, journal, ho, hcomp, -⟩ := reverse_plan sha256 transactionId id (some ⟨code, []⟩)
        · rw [hp]; exact ⟨_, rfl⟩
        · rw [hp]; exact ⟨_, rfl⟩
        · cases ho
          exact absurd hcomp.postings journal.nonempty

/-! ## Interleavings -/

section

variable {ι : Type} [DecidableEq ι] [Fintype ι] {requests : ι → Request} {w : postgres.World}
  {c : Config postgres ι Reply} {i : ι} {as : List (Act postgres ι)}

/-- No other request reverses the transaction this one reverses. -/
def Unrivalled (requests : ι → Request) (i : ι) : Prop :=
  ∀ j, j ≠ i → ∀ target, (requests i).ReversesId target → ¬ (requests j).ReversesId target

omit [DecidableEq ι] [Fintype ι] in
theorem unrivalled_transfer {input : TransferInput} {id : Uuid} (hi : requests i = .transfer input id) :
    Unrivalled requests i := by
  intro j _ target h
  rw [hi] at h
  exact h.elim

theorem timing (hw : Reachable sha256 admitted w) (ha : (requests i).Admitted) (hrival : Unrivalled requests i) :
    Timing discipline likeness (caution (requests i)) (fun i => (requests i).call sha256)
      (Config.start w fun i => (requests i).call sha256) i where
  lawful := Config.lawful_start hw.sound
  disciplined _ := request_disciplined _
  exact := likeness_exact
  blind _ h := h
  sane c hc u row hrow := by
    have hrecorded : Recorded c.db := reaches_invariant hw hc hw.recorded fun hi hc => hi.commit hc
    exact (hrecorded.account u row hrow).1
  wary := request_wary ha
  risk c hc j hj r ws' hcommits o ws held hasked hfp hholds hstale := by
    cases o with
    | ans s ans =>
      cases s with
      | lockBalance a => exact hstale
      | _ => exact hstale.elim
    | row q row =>
      cases q with
      | account id => exact hstale
      | key k => exact hstale
      | reversalOf transactionId =>
        -- whoever reversed it meanwhile is a rival
        obtain ⟨rfl, u, hu, hsome⟩ := hstale
        obtain ⟨id, hi⟩ := hasked
        have hholds : Query.answer (.reversalOf transactionId) (postgres.view c.db ws) = .ok none := hholds
        simp only [Query.answer, castUuid_ok.2 hu, bind, Except.bind, pure, Except.pure, Except.ok.injEq] at hholds
        rw [hfp.view_reversalOf, Option.or_eq_none_iff] at hholds
        have hmine : (requests i).ReversesId u := by
          rw [hi]
          exact hu
        have hreversed := (request_commits hcommits).reversed_by (hrival j hj u hmine) (reversalOf_isSome.1 hsome)
        rw [← reversalOf_isSome, hholds.1] at hreversed
        cases hreversed
      | _ => exact hstale.elim

/-- **Every answer was true at one moment.** Whatever the interleaving, an admitted request
that is done and was not ended by the database (a reversal without a rival) has among its
own events one at which, served alone on the tables committed then, it is answered the same
and does to the tables what the event did. -/
theorem request_linearizable {x : Except Failure Reply} (hw : Reachable sha256 admitted w) (ha : (requests i).Admitted)
    (hrival : Unrivalled requests i) (hrun : Run (Config.start w fun i => (requests i).call sha256) as c)
    (hkept : ∀ x, Act.abort i x ∉ as) (hdone : c.phase i = .done x) :
    ∃ before after d e, as = before ++ .advance i :: after ∧
      Run (Config.start w fun i => (requests i).call sha256) before d ∧ d.act (.advance i) = some e ∧
      ∀ n, (serve sha256 (requests i) ⟨d.db, n⟩).1 = x ∧ Alike e.db (serve sha256 (requests i) ⟨d.db, n⟩).2.db :=
  (timing hw ha hrival).moment rfl hrun hkept hdone

end

/-- Both deposits are done. -/
theorem Sample.overlapping_done : ∃ c : Config postgres (Fin 2) Reply,
    (Config.start emptyAccounts fun i => (twoDeposits i).call (digest twoDepositsDigests)).play overlapping = some c ∧
    ∀ i, ∃ x, c.phase i = .done x := by
  have h : ((Config.start emptyAccounts fun i => (twoDeposits i).call (digest twoDepositsDigests)).play overlapping).any
      (fun c => decide (∀ i, (c.phase i).result.isSome)) = true := by decide +kernel
  obtain ⟨c, hplay, hdone⟩ := (Option.any_eq_true _ _).1 h
  refine ⟨c, hplay, fun i => ?_⟩
  obtain ⟨x, hx⟩ := Option.isSome_iff_exists.1 (of_decide_eq_true hdone i)
  exact ⟨x, Phase.result_eq.1 hx⟩

/-- Of two deposits at once, the second to commit. -/
theorem request_linearizable_deposits : ∃ (c : Config postgres (Fin 2) Reply) (x : Except Failure Reply),
    (Config.start Sample.emptyAccounts fun i =>
      (Sample.twoDeposits i).call (Sample.digest Sample.twoDepositsDigests)).play Sample.overlapping = some c ∧
    c.phase 1 = .done x ∧ ∃ before after d e, Sample.overlapping = before ++ .advance 1 :: after ∧
      Run (Config.start Sample.emptyAccounts fun i =>
        (Sample.twoDeposits i).call (Sample.digest Sample.twoDepositsDigests)) before d ∧
      d.act (.advance 1) = some e ∧ ∀ n,
        (serve (Sample.digest Sample.twoDepositsDigests) (Sample.twoDeposits 1) ⟨d.db, n⟩).1 = x ∧
        Alike e.db (serve (Sample.digest Sample.twoDepositsDigests) (Sample.twoDeposits 1) ⟨d.db, n⟩).2.db := by
  obtain ⟨c, hplay, hdone⟩ := Sample.overlapping_done
  obtain ⟨x, hx⟩ := hdone 1
  have hadmitted : (Sample.twoDeposits 1).Admitted := by decide
  have hkept : ∀ x, (Act.abort 1 x : Act postgres (Fin 2)) ∉ Sample.overlapping := by
    intro x
    simp [Sample.overlapping]
  have hrun := Run.played hplay
  exact ⟨c, x, hplay, hx, request_linearizable (Sample.reachable_after (by decide)) hadmitted
    (unrivalled_transfer rfl) hrun hkept (hx)⟩

end MiniLedger
