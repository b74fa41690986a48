import MiniLedger.Ledger.Commits
import MiniLedger.Sessions.Outcomes

/-!
# When `post` refuses a journal

The other half of `Posted`: why `post` ends in an exception, and that it returns where it
has no reason to. The loops over the legs come first, then the program, on tables whose
accounts have a supported currency and a balance row.
-/

namespace MiniLedger

open Collections Sessions

namespace LedgerPoster

/-! ## The loops -/

theorem collect_error {currency : Currency} {accounts : List (Option Account)} {start : Involved} {e : Failure}
    (h : collect currency accounts start = .error e) : (e = .posting .unknownAccount ∧ none ∈ accounts) ∨
      (e = .posting .accountCurrencyMismatch ∧ ∃ a, some a ∈ accounts ∧ a.currency.code ≠ currency.code) := by
  induction accounts generalizing start with
  | nil => cases h
  | cons o os ih =>
    cases o with
    | none => cases h; exact .inl ⟨rfl, List.mem_cons_self ..⟩
    | some a =>
      rw [collect] at h
      split at h
      · rename_i hc
        cases h
        exact .inr ⟨rfl, a, List.mem_cons_self .., by simpa [Currency.equals] using hc⟩
      · rcases ih h with ⟨rfl, hn⟩ | ⟨rfl, b, hb, hc⟩
        · exact .inl ⟨rfl, List.mem_cons_of_mem _ hn⟩
        · exact .inr ⟨rfl, b, List.mem_cons_of_mem _ hb, hc⟩

theorem checkOwner_error {owner : String} {byId : Keyed String Account} {postings : List Posting} {e : Failure}
    (h : checkOwner owner byId postings = .error e) : e = .posting .notAccountOwner ∧
      ∃ p ∈ postings, p.amount.isNegative ∧ ∃ a, byId.get? p.accountId.value = some a ∧
        ¬ a.isSystem ∧ ¬ a.isOwnedBy owner := by
  induction postings with
  | nil => cases h
  | cons p ps ih =>
    have later : checkOwner owner byId ps = .error e → e = .posting .notAccountOwner ∧
        ∃ q ∈ p :: ps, q.amount.isNegative ∧ ∃ a, byId.get? q.accountId.value = some a ∧
          ¬ a.isSystem ∧ ¬ a.isOwnedBy owner := by
      intro h
      obtain ⟨he, q, hq, hrest⟩ := ih h
      exact ⟨he, q, List.mem_cons_of_mem _ hq, hrest⟩
    rw [checkOwner] at h
    split at h
    · rename_i hneg
      split at h
      · rename_i source hs
        split at h
        · rename_i hown
          cases h
          exact ⟨rfl, p, List.mem_cons_self .., hneg, source, hs, hown⟩
        · exact later h
      · exact later h
    · exact later h

variable {sha256 : String → String} {currency : Currency} {floors : Keyed String (Option Int)} {transactionId : String}

/-- In one currency the check compares integers. -/
theorem isSufficient_eq {balance : Int} {delta : Money} (hc : delta.currency.code = currency.code) (floor : Option Int) :
    isSufficient ⟨balance, currency⟩ delta floor = .ok (decide (∀ f ∈ floor, f ≤ balance + delta.amount)) := by
  cases floor with
  | none => simp [isSufficient]
  | some floor =>
    have heq : currency.equals delta.currency = true := by rw [Currency.equals, hc]; exact beq_self_eq_true _
    simp [isSufficient, Money.add, heq, bind, Except.bind, pure, Except.pure]

/-- What is moved under the text of the `i`-th leg by the legs up to and including it. -/
def movedUpTo (ps : List Posting) (i : Nat) (k : String) : Int := moved (ps.take (i + 1)) k

theorem movedUpTo_zero (p : Posting) (ps : List Posting) :
    movedUpTo (p :: ps) 0 p.accountId.value = p.amount.amount := by
  rw [movedUpTo, List.take_succ_cons, List.take_zero, moved_cons_self, moved_nil, Int.add_zero]

/-- The balance the later legs find under `k`, and what they add to it. -/
theorem movedUpTo_succ {p : Posting} (ps : List Posting) {running : Keyed String BalanceRow} {state next s : BalanceRow}
    (hstate : running.get? p.accountId.value = some state) (hnext : next.balance = state.balance + p.amount.amount)
    {k : String} (hs : running.get? k = some s) (i : Nat) :
    ∃ s', (running.set p.accountId.value next).get? k = some s' ∧
      s'.balance + movedUpTo ps i k = s.balance + movedUpTo (p :: ps) (i + 1) k := by
  rw [movedUpTo, movedUpTo, List.take_succ_cons, moved_cons]
  by_cases hk : k = p.accountId.value
  · subst hk
    obtain rfl : s = state := Option.some.inj (hs.symm.trans hstate)
    refine ⟨next, Keyed.get?_set_self .., ?_⟩
    rw [if_pos rfl, hnext]
    omega
  · refine ⟨s, (Keyed.get?_set_of_ne _ _ hk).trans hs, ?_⟩
    rw [if_neg (Ne.symm hk)]
    omega

/-- The balance after each leg, and the floor each leg kept to. -/
theorem postLegs_upTo {ps : List Posting} {running : Keyed String BalanceRow} {legs : Legs}
    (hcur : ∀ p ∈ ps, p.amount.currency.code = currency.code)
    (h : postLegs sha256 currency floors transactionId ps running = .ok legs) {i : Nat} {p : Posting} {s : BalanceRow}
    (hp : ps[i]? = some p) (hs : running.get? p.accountId.value = some s) :
    (∃ line, legs.lines[i]? = some line ∧ line.balanceAfter = s.balance + movedUpTo ps i p.accountId.value) ∧
      ∀ floor, floors.get? p.accountId.value = some (some floor) → floor ≤ s.balance + movedUpTo ps i p.accountId.value := by
  induction ps generalizing running legs i s with
  | nil => cases hp
  | cons q qs ih =>
    obtain ⟨state, next, rest, hstate, hok, hb, _, hr, rfl⟩ := postLegs_cons h
    rw [List.forall_mem_cons] at hcur
    cases i with
    | zero =>
      obtain rfl : q = p := Option.some.inj hp
      obtain rfl : state = s := Option.some.inj (hstate.symm.trans hs)
      rw [movedUpTo_zero]
      refine ⟨⟨_, rfl, hb⟩, fun floor hfloor => ?_⟩
      rw [hfloor, isSufficient_eq hcur.1] at hok
      simpa using hok
    | succ i =>
      obtain ⟨s', hs', hsum⟩ := movedUpTo_succ qs hstate hb hs i
      rw [← hsum]
      exact ih hcur.2 hr hp hs'

/-- The only refusal of the loop: a leg that takes its account below the floor. -/
theorem postLegs_error {ps : List Posting} {running : Keyed String BalanceRow} {e : Failure}
    (hcur : ∀ p ∈ ps, p.amount.currency.code = currency.code)
    (hrun : ∀ p ∈ ps, ∃ s, running.get? p.accountId.value = some s)
    (h : postLegs sha256 currency floors transactionId ps running = .error e) : e = .posting .insufficientFunds ∧
      ∃ i p s floor, ps[i]? = some p ∧ running.get? p.accountId.value = some s ∧
        floors.get? p.accountId.value = some (some floor) ∧ s.balance + movedUpTo ps i p.accountId.value < floor := by
  induction ps generalizing running with
  | nil => cases h
  | cons q qs ih =>
    rw [List.forall_mem_cons] at hcur
    obtain ⟨state, hstate⟩ := hrun q (List.mem_cons_self ..)
    rw [postLegs] at h
    simp only [hstate] at h
    rw [isSufficient_eq hcur.1] at h
    split at h
    · rename_i hx; cases hx
    · rename_i hx
      cases h
      rw [Except.ok.injEq, decide_eq_false_iff_not] at hx
      cases hfloor : floors.get? q.accountId.value with
      | none => simp [hfloor] at hx
      | some o =>
        cases o with
        | none => simp [hfloor] at hx
        | some floor =>
          refine ⟨rfl, 0, q, state, floor, rfl, hstate, hfloor, ?_⟩
          rw [movedUpTo_zero]
          simpa [hfloor] using hx
    · split at h
      · rename_i e' hr
        cases h
        obtain ⟨next, hnext, hr⟩ : ∃ next : BalanceRow, next.balance = state.balance + q.amount.amount ∧
            postLegs sha256 currency floors transactionId qs (running.set q.accountId.value next) = .error e :=
          ⟨_, rfl, hr⟩
        have hrun' : ∀ p ∈ qs, ∃ s, (running.set q.accountId.value next).get? p.accountId.value = some s := by
          intro p hp
          obtain ⟨s, hs⟩ := hrun p (List.mem_cons_of_mem _ hp)
          obtain ⟨s', hs', -⟩ := movedUpTo_succ qs hstate hnext hs 0
          exact ⟨s', hs'⟩
        obtain ⟨he, i, p, s', floor, hp, hs', hfloor, hlt⟩ := ih hcur.2 hrun' hr
        obtain ⟨s, hs⟩ := hrun p (List.mem_cons_of_mem _ (List.mem_of_getElem? hp))
        obtain ⟨s'', hs'', hsum⟩ := movedUpTo_succ qs hstate hnext hs i
        obtain rfl : s'' = s' := Option.some.inj (hs''.symm.trans hs')
        exact ⟨he, i + 1, p, s, floor, hp, hs, hfloor, hsum ▸ hlt⟩
      · cases h

end LedgerPoster

/-! ## The statements -/

/-- The account an id text names, if there is one, can be read and locked: it has a supported
currency and a balance row. -/
def Readable (t : Tables) (text : String) : Prop :=
  ∃ u, Uuid.parse? text = some u ∧ ∀ row, t.accounts.get? u = some row →
    row.currency ∈ Currency.codes ∧ ∃ s, t.balances.get? u = some s

variable {db t : Tables} {ws : List Write}

theorem Readable.named {text : String} {u : Uuid} {row : AccountRow} (h : Readable t text) (hn : Names t text u row) :
    row.currency ∈ Currency.codes ∧ ∃ s, t.balances.get? u = some s := by
  obtain ⟨u', hu', hrows⟩ := h
  obtain rfl : u' = u := Option.some.inj (hu'.symm.trans hn.1)
  exact hrows row hn.2

theorem AccountsRepository.toDomain_supported {u : Uuid} {row : AccountRow} {a : Account}
    (hs : row.currency ∈ Currency.codes) (h : toDomain u row = .ok a) : a.currency.code = some row.currency := by
  obtain ⟨c, hc, hcode⟩ := Currency.of_supported hs
  have hof := (toDomain_ok h).2.2.2.2
  rw [hc] at hof
  cases hof
  exact hcode

theorem AccountsRepository.findById_ok {id : AccountId} (hr : Readable t id.value) :
    ∃ o, postgres.read t (findById id) = .ok o := by
  obtain ⟨u, hu, hrow⟩ := hr
  simp only [findById, Prog.ask, Prog.query_bind, Prog.pure_bind, Engine.read, Query.answer, castUuid_ok.2 hu, bind,
    Except.bind, pure, Except.pure]
  cases hg : t.accounts.get? u with
  | none => exact ⟨none, rfl⟩
  | some row =>
    obtain ⟨c, hc, -⟩ := Currency.of_supported (hrow row hg).1
    simp only [Option.map_some, toDomain, hc]
    exact ⟨_, rfl⟩

theorem LedgerPoster.findAccounts_ends {ids : List AccountId} (hr : ∀ id ∈ ids, Readable (postgres.view db ws) id.value) :
    postgres.Ends db (fun _ _ => True) (fun _ => False) (findAccounts ids) ws := by
  induction ids with
  | nil => trivial
  | cons id ids ih =>
    rw [List.forall_mem_cons] at hr
    obtain ⟨o, ho⟩ := AccountsRepository.findById_ok hr.1
    refine Engine.ends_bind (Engine.ends_lift (fun a _ => ?_) fun e he => ?_)
    · exact Engine.ends_bind ((ih hr.2).mono (fun _ _ _ => trivial) fun _ h => h)
    · rw [ho] at he
      cases he

theorem AccountBalancesRepository.lockForUpdate_ends {ids : List AccountId}
    (hids : ∀ id ∈ ids, ∃ u s, Uuid.parse? id.value = some u ∧ (postgres.view db ws).balances.get? u = some s) :
    postgres.Ends db (fun _ _ => True) (fun _ => False) (lockForUpdate ids) ws := by
  have each : ∀ (ks : List String) (start : Keyed String BalanceRow), (∀ k ∈ ks, ∃ u s, Uuid.parse? k = some u ∧
      (postgres.view db ws).balances.get? u = some s) →
      postgres.Ends db (fun _ _ => True) (fun _ => False) (lockEach ks start) ws := by
    intro ks
    induction ks with
    | nil => exact fun _ _ => trivial
    | cons k ks ih =>
      intro start hks
      rw [List.forall_mem_cons] at hks
      obtain ⟨⟨u, s, hu, hs⟩, hrest⟩ := hks
      intro n
      refine ⟨fun row new hx => ?_, fun e he => ?_⟩
      · obtain ⟨u', hu', rfl, rfl⟩ := (exec_lockBalance (n := n)).1 hx
        obtain rfl : u' = u := Option.some.inj (hu'.symm.trans hu)
        rw [hs, List.append_nil]
        exact ih _ hrest
      · simp [Stmt.exec, castUuid_ok.2 hu, bind, Except.bind, pure, Except.pure] at he
  refine each _ _ fun k hk => ?_
  obtain ⟨id, hid, rfl⟩ := mem_lockOrder.1 hk
  exact hids id hid

/-- The database's error for a text with the character U+0000. -/
def notStorable : Failure := .query ⟨"22021", none⟩

/-- The database's error for a value outside its column's range. -/
def outOfRange : Failure := .query ⟨"22003", none⟩

/-- The database's error for a statement with more parameters than it takes. -/
def tooManyParameters : Failure := .query ⟨"08P01", none⟩

/-- The database's error for a journal id that is taken. -/
def duplicateId : Failure := .query ⟨"23505", some "journal_transactions_pkey"⟩

/-- The id text a journal links to, if any, names a journal that none reverses. -/
def Linkable (t : Tables) (reverses : Option String) : Prop :=
  ∃ target, Cast reverses target ∧ ∀ r ∈ target, t.reversalOf r = none ∧ (t.journals.get? r).isSome

theorem LedgerPoster.updateBalances_ends {entries : List (String × BalanceRow)}
    (h : ∀ e ∈ entries, (∃ u, Uuid.parse? e.1 = some u) ∧ Int8 e.2.balance) :
    postgres.Ends db (fun _ _ => True) (fun _ => False) (updateBalances entries) ws := by
  induction entries generalizing ws with
  | nil => trivial
  | cons e entries ih =>
    rw [List.forall_mem_cons] at h
    obtain ⟨⟨⟨u, hu⟩, hrange⟩, hrest⟩ := h
    intro n
    refine ⟨fun _ _ _ => ih hrest, fun x hx => ?_⟩
    simp [Stmt.exec, castUuid_ok.2 hu, require, hrange, bind, Except.bind, pure, Except.pure] at hx

namespace JournalTransactionsRepository

/-- Rows whose parameters are bound, of a stored journal on stored accounts, are stored. -/
theorem insertEach_ends {values : List PostingValues} {id : Uuid}
    (hjournal : ((postgres.view db ws).journals.get? id).isSome)
    (h : ∀ v ∈ values, ∃ u, v.bind = .ok (id, u) ∧ v.amount ≠ 0 ∧ ((postgres.view db ws).accounts.get? u).isSome) :
    postgres.Ends db (fun _ _ => True) (fun _ => False) (insertEach values) ws := by
  induction values generalizing ws with
  | nil => trivial
  | cons v values ih =>
    rw [List.forall_mem_cons] at h
    obtain ⟨⟨u, hbind, hne, hacc⟩, hrest⟩ := h
    intro n
    refine ⟨fun _ new hx => ?_, fun e he => ?_⟩
    · obtain ⟨_, _, _, _, _, _, _, _, rfl⟩ := (exec_insertPosting (n := n)).1 hx
      have same : ∀ row, (postgres.view db (ws ++ [.posting row])).accounts = (postgres.view db ws).accounts ∧
          (postgres.view db (ws ++ [.posting row])).journals = (postgres.view db ws).journals := by
        intro row
        rw [view_append]
        exact ⟨rfl, rfl⟩
      refine ih ?_ fun v hv => ?_
      · rw [(same _).2]; exact hjournal
      · rw [(same _).1]; exact hrest v hv
    · simp [Stmt.exec, hbind, require, hne, hjournal, hacc, bind, Except.bind, pure, Except.pure] at he

/-- Why the parameters of rows with readable ids cannot be bound. -/
theorem bindPostings_error {values : List PostingValues} {e : Failure}
    (hids : ∀ v ∈ values, (∃ tid, Uuid.parse? v.transactionId = some tid) ∧ ∃ u, Uuid.parse? v.accountId = some u)
    (h : bindPostings values = .error e) : (e = tooManyParameters ∧ ¬ 6 * values.length ≤ 65535) ∨
      (e = outOfRange ∧ 6 * values.length ≤ 65535 ∧ ∃ v ∈ values, ¬ (Int8 v.amount ∧ Int8 v.balanceAfter)) := by
  have each : ∀ rows : List PostingValues,
      (∀ v ∈ rows, (∃ tid, Uuid.parse? v.transactionId = some tid) ∧ ∃ u, Uuid.parse? v.accountId = some u) →
      bindEach rows = .error e → e = outOfRange ∧ ∃ v ∈ rows, ¬ (Int8 v.amount ∧ Int8 v.balanceAfter) := by
    intro rows hids h
    induction rows with
    | nil => cases h
    | cons v rows ih =>
      rw [List.forall_mem_cons] at hids
      obtain ⟨⟨⟨tid, htid⟩, u, hu⟩, hrest⟩ := hids
      by_cases hrange : Int8 v.amount ∧ Int8 v.balanceAfter
      · have hbind : v.bind = .ok (tid, u) := PostingValues.bind_ok.2 ⟨htid, hu, hrange⟩
        rw [bindEach, hbind] at h
        obtain ⟨he, v', hv', hout⟩ := ih hrest h
        exact ⟨he, v', List.mem_cons_of_mem _ hv', hout⟩
      · have hbind : v.bind = .error outOfRange := by
          simp only [PostingValues.bind, castUuid_ok.2 htid, castUuid_ok.2 hu, require, if_neg hrange, bind, Except.bind]
          rfl
        rw [bindEach, hbind] at h
        cases h
        exact ⟨rfl, v, List.mem_cons_self .., hrange⟩
  by_cases hfew : 6 * values.length ≤ 65535
  · rw [bindPostings, require, if_pos hfew] at h
    obtain ⟨he, hout⟩ := each values hids h
    exact .inr ⟨he, hfew, hout⟩
  · rw [bindPostings, require, if_neg hfew] at h
    cases h
    exact .inl ⟨rfl, hfew⟩

theorem insertPostings_ends {values : List PostingValues} {id : Uuid}
    (hjournal : ((postgres.view db ws).journals.get? id).isSome)
    (h : ∀ v ∈ values, Uuid.parse? v.transactionId = some id ∧ v.amount ≠ 0 ∧
      ∃ u, Uuid.parse? v.accountId = some u ∧ ((postgres.view db ws).accounts.get? u).isSome) :
    postgres.Ends db (fun _ _ => 6 * values.length ≤ 65535 ∧ ∀ v ∈ values, Int8 v.amount ∧ Int8 v.balanceAfter)
      (fun e => (e = tooManyParameters ∧ ¬ 6 * values.length ≤ 65535) ∨
        (e = outOfRange ∧ 6 * values.length ≤ 65535 ∧ ∃ v ∈ values, ¬ (Int8 v.amount ∧ Int8 v.balanceAfter)))
      (insertPostings values) ws := by
  refine Engine.ends_bind (Engine.ends_ofExcept (fun _ hbind => ?_) fun e he => ?_)
  · obtain ⟨hfew, hbound⟩ := bindPostings_ok.1 hbind
    have hrange : ∀ v ∈ values, Int8 v.amount ∧ Int8 v.balanceAfter := by
      intro v hv
      obtain ⟨ids, hids⟩ := hbound v hv
      exact (PostingValues.bind_ok.1 hids).2.2
    refine (insertEach_ends hjournal fun v hv => ?_).mono (fun _ _ _ => ⟨hfew, hrange⟩) fun _ h => h.elim
    obtain ⟨hid, hne, u, hu, hacc⟩ := h v hv
    exact ⟨u, PostingValues.bind_ok.2 ⟨hid, hu, hrange v hv⟩, hne, hacc⟩
  · refine bindPostings_error (fun v hv => ?_) he
    obtain ⟨hid, -, u, hu, -⟩ := h v hv
    exact ⟨⟨id, hid⟩, u, hu⟩

theorem append_ends {journal : JournalTransaction} {lines : List PostingLine} {reverses : Option String} {id : Uuid}
    {code : String} (hlen : lines.length = journal.postings.length) (hid : Uuid.parse? journal.id = some id)
    (hcode : journal.currency.code = some code) (hlink : Linkable (postgres.view db ws) reverses)
    (hacc : ∀ p ∈ journal.postings, ∃ u, Uuid.parse? p.accountId.value = some u ∧
      ((postgres.view db ws).accounts.get? u).isSome) :
    postgres.Ends db
      (fun _ _ => (postgres.view db ws).journals.get? id = none ∧ 6 * journal.postings.length ≤ 65535 ∧
        ∀ v ∈ toPostingRows journal lines, Int8 v.amount ∧ Int8 v.balanceAfter)
      (fun e => (e = duplicateId ∧ ((postgres.view db ws).journals.get? id).isSome) ∨
        ((postgres.view db ws).journals.get? id = none ∧
          ((e = tooManyParameters ∧ ¬ 6 * journal.postings.length ≤ 65535) ∨
            (e = outOfRange ∧ 6 * journal.postings.length ≤ 65535 ∧
              ∃ v ∈ toPostingRows journal lines, ¬ (Int8 v.amount ∧ Int8 v.balanceAfter)))))
      (append journal lines reverses) ws := by
  obtain ⟨target, htarget, hun⟩ := hlink
  rw [append, if_neg (by simpa using hlen)]
  refine Engine.ends_bind fun n => ⟨fun _ new hx => ?_, fun e he => ?_⟩
  · obtain ⟨u, hu, target', -, code', -, hfresh, -, -, rfl⟩ := (exec_insertJournal (n := n)).1 hx
    obtain rfl : u = id := Option.some.inj (hu.symm.trans hid)
    have hview : (postgres.view db (ws ++ [.journal u ⟨code', target'⟩])).journals.get? u = some ⟨code', target'⟩ := by
      rw [view_append]
      exact Keyed.get?_set_self ..
    have hsame : (postgres.view db (ws ++ [.journal u ⟨code', target'⟩])).accounts = (postgres.view db ws).accounts := by
      rw [view_append]
      rfl
    have hrows : (toPostingRows journal lines).length = journal.postings.length := by
      rw [toPostingRows, List.length_zipWith, hlen, min_self]
    rw [← hrows]
    refine (insertPostings_ends (by rw [hview]; rfl) fun v hv => ?_).mono (fun _ _ h => ⟨hfresh, h⟩) fun e h =>
      .inr ⟨hfresh, h⟩
    obtain ⟨p, hp, line, -, rfl⟩ := exists_of_mem_zipWith hv
    exact ⟨hid, journal.nonzero p hp, hsame ▸ hacc p hp⟩
  · cases hg : (postgres.view db ws).journals.get? id with
    | some row =>
      simp [Stmt.exec, toTransactionRow, castUuid_ok.2 hid, mapM_castUuid_ok.2 htarget, hcode, notNull, require, hg, bind,
        Except.bind] at he
      exact .inl ⟨he.symm, rfl⟩
    | none =>
      have hun₁ : ∀ r ∈ target, (postgres.view db ws).reversalOf r = none := fun r hr => (hun r hr).1
      have hun₂ : ∀ r ∈ target, r = id ∨ ((postgres.view db ws).journals.get? r).isSome := fun r hr => .inr (hun r hr).2
      have hok : ∃ out, Stmt.exec (.insertJournal (toTransactionRow journal reverses)) n (postgres.view db ws) = .ok ((), out) :=
        ⟨_, exec_insertJournal.2 ⟨id, hid, target, htarget, code, hcode, hg, hun₁, hun₂, rfl⟩⟩
      obtain ⟨out, hout⟩ := hok
      cases hout.symm.trans he

theorem getElem?_toPostingRows {journal : JournalTransaction} {lines : List PostingLine} {i : Nat} {p : Posting}
    {line : PostingLine} (hp : journal.postings[i]? = some p) (hline : lines[i]? = some line) :
    (toPostingRows journal lines)[i]? = some (toPostingRow journal.id p line) := by
  rw [toPostingRows, List.getElem?_zipWith, hp, hline]

/-- Each line is the balance of a row. -/
theorem exists_row {journal : JournalTransaction} {lines : List PostingLine} {line : PostingLine}
    (hlen : lines.length = journal.postings.length) (h : line ∈ lines) :
    ∃ v ∈ toPostingRows journal lines, v.balanceAfter = line.balanceAfter := by
  obtain ⟨i, hi⟩ := List.mem_iff_getElem?.1 h
  obtain ⟨p, hp⟩ : ∃ p, journal.postings[i]? = some p := by
    have hlt : i < lines.length := (List.getElem?_eq_some_iff.1 hi).1
    exact ⟨_, List.getElem?_eq_getElem (by omega)⟩
  exact ⟨_, List.mem_iff_getElem?.2 ⟨i, getElem?_toPostingRows hp hi⟩, rfl⟩

end JournalTransactionsRepository

/-! ## The program -/

/-- Why `post` refuses the legs on the tables `t`. The floors and the owners are those of the
accounts whose id a leg spells as the database prints it. -/
inductive Refuses (t : Tables) (postings : List Posting) (currency : Currency) (requireOwner : Option String) :
    PostingError → Prop where
  | unknownAccount {p u} (leg : p ∈ postings) (parsed : Uuid.parse? p.accountId.value = some u)
      (unknown : t.accounts.get? u = none) : Refuses t postings currency requireOwner .unknownAccount
  | accountCurrencyMismatch {p u row} (leg : p ∈ postings) (named : Names t p.accountId.value u row)
      (mismatch : some row.currency ≠ currency.code) : Refuses t postings currency requireOwner .accountCurrencyMismatch
  | notAccountOwner {p u row owner} (required : requireOwner = some owner) (leg : p ∈ postings)
      (negative : p.amount.isNegative) (named : Names t p.accountId.value u row) (spelled : p.accountId.value = u.text)
      (user : row.type ≠ .system) (foreign : row.ownerId ≠ some owner) :
      Refuses t postings currency requireOwner .notAccountOwner
  | insufficientFunds {i p u row s floor} (leg : postings[i]? = some p) (named : Names t p.accountId.value u row)
      (spelled : p.accountId.value = u.text) (floored : row.overdraftFloor = some floor)
      (locked : t.balances.get? u = some s) (below : s.balance + LedgerPoster.movedUpTo postings i p.accountId.value < floor) :
      Refuses t postings currency requireOwner .insufficientFunds

/-- Every amount and every balance on the way fits its column. -/
def Fits (t : Tables) (postings : List Posting) : Prop :=
  ∀ i p u s, postings[i]? = some p → Uuid.parse? p.accountId.value = some u → t.balances.get? u = some s →
    Int8 p.amount.amount ∧ Int8 (s.balance + LedgerPoster.movedUpTo postings i p.accountId.value)

namespace LedgerPoster

variable {sha256 : String → String} {journal : JournalTransaction} {currency : Currency} {options : PostOptions}

/-- The balance left running under a text is that of a line. -/
theorem postLegs_last {floors : Keyed String (Option Int)} {transactionId : String} {ps : List Posting}
    {running : Keyed String BalanceRow} {legs : Legs}
    (h : postLegs sha256 currency floors transactionId ps running = .ok legs) {k : String} {s : BalanceRow}
    (hk : legs.running.get? k = some s) (htouched : ∃ p ∈ ps, p.accountId.value = k) :
    ∃ line ∈ legs.lines, line.balanceAfter = s.balance := by
  induction ps generalizing running legs with
  | nil => obtain ⟨p, hp, -⟩ := htouched; exact absurd hp List.not_mem_nil
  | cons p ps ih =>
    obtain ⟨state, next, rest, _, _, hb, _, hr, rfl⟩ := postLegs_cons h
    by_cases htail : ∃ q ∈ ps, q.accountId.value = k
    · obtain ⟨line, hline, heq⟩ := ih hr hk htail
      exact ⟨line, List.mem_cons_of_mem _ hline, heq⟩
    · obtain ⟨q, hq, rfl⟩ := htouched
      rcases List.mem_cons.1 hq with rfl | hq
      · -- the last leg on this account
        have hmoved := postLegs_moved hr (Keyed.get?_set_self ..) hk
        have hnone : moved ps q.accountId.value = 0 := moved_untouched fun q' hq' hk' => htail ⟨q', hq', hk'⟩
        exact ⟨_, List.mem_cons_self .., by show next.balance = s.balance; omega⟩
      · exact absurd ⟨q, hq, rfl⟩ htail

/-- The maps of `collect`, looked up by text: the account found there is the one the text
prints, and a leg names it. -/
theorem collected {postings : List Posting} {as : List Account} (found : List.Forall₂ (Found t) postings as)
    {α : Type} {f : Account → α} {k : String} {v : α}
    (h : (Keyed.empty.setAll (as.map fun a => (a.id.value, f a))).get? k = some v) :
    ∃ u row a, k = u.text ∧ t.accounts.get? u = some row ∧ AccountsRepository.toDomain u row = .ok a ∧ v = f a := by
  rw [Keyed.get?_setAll, Keyed.get?_empty, Option.or_none] at h
  obtain ⟨a, ha, heq⟩ := List.mem_map.1 (Keyed.mem_of_latest h)
  simp only [Prod.mk.injEq] at heq
  obtain ⟨p, -, u, row, hn, hd⟩ := Forall₂.exists_left found ha
  exact ⟨u, row, a, heq.1.symm.trans (AccountsRepository.toDomain_ok hd).1, hn.2, hd, heq.2.symm⟩

/-- The refusals of the first loop. -/
theorem collect_refuses {postings : List Posting} {accounts : List (Option Account)} {start : Involved} {e : Failure}
    (owner : Option String) (hr : ∀ p ∈ postings, Readable t p.accountId.value)
    (hread : List.Forall₂ (fun id o => postgres.read t (AccountsRepository.findById id) = .ok o)
      (postings.map Posting.accountId) accounts)
    (h : collect currency accounts start = .error e) : ∃ code, e = .posting code ∧ Refuses t postings currency owner code := by
  rw [List.forall₂_map_left_iff] at hread
  rcases collect_error h with ⟨rfl, hn⟩ | ⟨rfl, a, ha, hne⟩
  · obtain ⟨p, hp, hread⟩ := Forall₂.exists_left hread hn
    obtain ⟨u, hu, ⟨hnone, -⟩ | ⟨_, _, _, _, ho⟩⟩ := AccountsRepository.findById_read hread
    · exact ⟨_, rfl, .unknownAccount hp hu hnone⟩
    · cases ho
  · obtain ⟨p, hp, hread⟩ := Forall₂.exists_left hread ha
    obtain ⟨u, hu, ⟨-, ho⟩ | ⟨row, a', hrow, hd, ho⟩⟩ := AccountsRepository.findById_read hread
    · cases ho
    · cases ho
      refine ⟨_, rfl, .accountCurrencyMismatch hp ⟨hu, hrow⟩ ?_⟩
      rw [← AccountsRepository.toDomain_supported ((hr p hp).named ⟨hu, hrow⟩).1 hd]
      exact hne

/-- The refusal of the owner check. -/
theorem requireOwner_refuses {postings : List Posting} {as : List Account} {e : Failure}
    (found : List.Forall₂ (Found t) postings as)
    (h : requireOwner options (Keyed.empty.setAll (as.map fun a => (a.id.value, a))) postings = .error e) :
    ∃ code, e = .posting code ∧ Refuses t postings currency options.requireOwner code := by
  rw [requireOwner] at h
  split at h
  · rename_i owner hreq
    obtain ⟨rfl, p, hp, hneg, a, ha, hsys, hown⟩ := checkOwner_error h
    obtain ⟨u, row, a', hu, hrow, hd, rfl⟩ := collected (f := fun a => a) found ha
    obtain ⟨-, htype, -, howner, -⟩ := AccountsRepository.toDomain_ok hd
    refine ⟨_, rfl, .notAccountOwner hreq hp hneg ⟨hu ▸ u.parse?_text, hrow⟩ hu ?_ ?_⟩
    · simpa [Account.isSystem, htype] using hsys
    · simpa [Account.isOwnedBy, howner] using hown
  · cases h

/-- The refusal of the loop over the legs. -/
theorem postLegs_refuses {postings : List Posting} {as : List Account} {locked : Keyed String BalanceRow}
    {transactionId : String} {e : Failure} (owner : Option String) (found : List.Forall₂ (Found t) postings as)
    (hsame : ∀ p ∈ postings, p.amount.currency.code = currency.code)
    (hlock : ∀ p ∈ postings, ∃ u row, Uuid.parse? p.accountId.value = some u ∧ t.balances.get? u = some row ∧
      locked.get? p.accountId.value = some row)
    (h : postLegs sha256 currency (Keyed.empty.setAll (as.map fun a => (a.id.value, a.overdraftFloor))) transactionId
      postings locked = .error e) : ∃ code, e = .posting code ∧ Refuses t postings currency owner code := by
  have hrun : ∀ p ∈ postings, ∃ s, locked.get? p.accountId.value = some s := by
    intro p hp
    obtain ⟨_, s, -, -, hs⟩ := hlock p hp
    exact ⟨s, hs⟩
  obtain ⟨rfl, i, p, s, floor, hp, hs, hfloor, hlt⟩ := postLegs_error hsame hrun h
  obtain ⟨u, row, a, hu, hrow, hd, hfl⟩ := collected found hfloor
  have hparse : Uuid.parse? p.accountId.value = some u := hu ▸ u.parse?_text
  have hdeclared : row.overdraftFloor = some floor := (AccountsRepository.toDomain_ok hd).2.2.1.symm.trans hfl.symm
  obtain ⟨u', s', hu', hs', hlocked⟩ := hlock p (List.mem_of_getElem? hp)
  obtain rfl : u' = u := Option.some.inj (hu'.symm.trans hparse)
  obtain rfl : s' = s := Option.some.inj (hlocked.symm.trans hs)
  exact ⟨_, rfl, .insufficientFunds hp ⟨hparse, hrow⟩ hu hdeclared hs' hlt⟩

/-- Every account found can be locked. -/
theorem lockable_of_found {postings : List Posting} {as : List Account}
    (hr : ∀ p ∈ postings, Readable t p.accountId.value) (found : List.Forall₂ (Found t) postings as) :
    ∀ id ∈ postings.map Posting.accountId, ∃ u s, Uuid.parse? id.value = some u ∧ t.balances.get? u = some s := by
  intro id hid
  obtain ⟨p, hp, rfl⟩ := List.mem_map.1 hid
  obtain ⟨a, -, u, row, hn, -⟩ := Forall₂.exists_right found hp
  obtain ⟨-, s, hs⟩ := (hr p hp).named hn
  exact ⟨u, s, hn.1, hs⟩

/-- What the loops of `post` computed when none of them threw. -/
structure Passed (sha256 : String → String) (t : Tables) (journal : JournalTransaction) (currency : Currency)
    (options : PostOptions) (as : List Account) (involved : Involved) (locked : Keyed String BalanceRow) (legs : Legs) :
    Prop where
  found : List.Forall₂ (Found t) journal.postings as
  sameCurrency : ∀ a ∈ as, a.currency.code = currency.code
  floors : involved.floors = Keyed.empty.setAll (as.map fun a => (a.id.value, a.overdraftFloor))
  byId : involved.byId = Keyed.empty.setAll (as.map fun a => (a.id.value, a))
  owner : requireOwner options involved.byId journal.postings = .ok ()
  lock : ∀ p ∈ journal.postings, ∃ u row, Uuid.parse? p.accountId.value = some u ∧ t.balances.get? u = some row ∧
    locked.get? p.accountId.value = some row
  legs : postLegs sha256 currency involved.floors journal.id journal.postings locked = .ok legs

namespace Passed

variable {as : List Account} {involved : Involved} {locked : Keyed String BalanceRow} {legs : Legs}

theorem locked_row (h : Passed sha256 t journal currency options as involved locked legs) {p : Posting}
    (hp : p ∈ journal.postings) {u : Uuid} {s : BalanceRow} (hu : Uuid.parse? p.accountId.value = some u)
    (hs : t.balances.get? u = some s) : locked.get? p.accountId.value = some s := by
  obtain ⟨u', s', hu', hs', hlock⟩ := h.lock p hp
  obtain rfl : u' = u := Option.some.inj (hu'.symm.trans hu)
  obtain rfl : s' = s := Option.some.inj (hs'.symm.trans hs)
  exact hlock

/-- What passed the loops, nothing refuses. -/
theorem not_refuses (h : Passed sha256 t journal currency options as involved locked legs)
    (hr : ∀ p ∈ journal.postings, Readable t p.accountId.value) (hcur : journal.currency = currency) (code : PostingError) :
    ¬ Refuses t journal.postings currency options.requireOwner code := by
  have hsame : ∀ p ∈ journal.postings, p.amount.currency.code = currency.code := hcur ▸ journal.sameCurrency
  intro hrefuse
  cases hrefuse with
  | @unknownAccount p u hp hu hnone =>
    obtain ⟨a, -, u', row, ⟨hu', hrow⟩, -⟩ := Forall₂.exists_right h.found hp
    obtain rfl : u' = u := Option.some.inj (hu'.symm.trans hu)
    cases hnone.symm.trans hrow
  | @accountCurrencyMismatch p u row hp hn hne =>
    obtain ⟨a, ha, u', row', hn', hd⟩ := Forall₂.exists_right h.found hp
    obtain rfl : u' = u := Option.some.inj (hn'.1.symm.trans hn.1)
    obtain rfl : row' = row := Option.some.inj (hn'.2.symm.trans hn.2)
    exact hne ((AccountsRepository.toDomain_supported ((hr p hp).named hn).1 hd).symm.trans (h.sameCurrency a ha))
  | @notAccountOwner p u row owner hreq hp hneg hn hu htype howner =>
    obtain ⟨a, hd, hmap⟩ := Found.mapped h.found hp hn
    have hby : involved.byId.get? p.accountId.value = some a := by rw [h.byId, hu]; exact hmap fun a => a
    have hchecked := h.owner
    rw [requireOwner, hreq] at hchecked
    obtain ⟨-, htype', -, howner', -⟩ := AccountsRepository.toDomain_ok hd
    rcases checkOwner_ok hchecked p hp hneg a hby with hsys | hown
    · exact htype (htype'.symm.trans (by simpa [Account.isSystem] using hsys))
    · exact howner (howner'.symm.trans (by simpa [Account.isOwnedBy] using hown))
  | @insufficientFunds i p u row s floor hp hn hu hfloor hs hlt =>
    have hmem := List.mem_of_getElem? hp
    obtain ⟨a, hd, hmap⟩ := Found.mapped h.found hmem hn
    have hfl : involved.floors.get? p.accountId.value = some (some floor) := by
      rw [h.floors, hu, hmap Account.overdraftFloor, (AccountsRepository.toDomain_ok hd).2.2.1, hfloor]
    have hkept := (postLegs_upTo hsame h.legs hp (h.locked_row hmem hn.1 hs)).2 floor hfl
    omega

/-- The journal's currency is the one in the rows of its accounts. -/
theorem code (h : Passed sha256 t journal currency options as involved locked legs)
    (hr : ∀ p ∈ journal.postings, Readable t p.accountId.value) (hcur : journal.currency = currency) :
    ∃ code, journal.currency.code = some code := by
  obtain ⟨first, rest, hpostings⟩ := List.exists_cons_of_ne_nil journal.nonempty
  have hfirst : first ∈ journal.postings := hpostings ▸ List.mem_cons_self ..
  obtain ⟨a, ha, u, row, hn, hd⟩ := Forall₂.exists_right h.found hfirst
  refine ⟨row.currency, ?_⟩
  rw [hcur, ← h.sameCurrency a ha, AccountsRepository.toDomain_supported ((hr first hfirst).named hn).1 hd]

theorem account (h : Passed sha256 t journal currency options as involved locked legs) {p : Posting}
    (hp : p ∈ journal.postings) : ∃ u, Uuid.parse? p.accountId.value = some u ∧ (t.accounts.get? u).isSome := by
  obtain ⟨_, -, u, row, ⟨hu, hrow⟩, -⟩ := Forall₂.exists_right h.found hp
  exact ⟨u, hu, by rw [hrow]; rfl⟩

/-- The balances left running can be written when the rows could be. -/
theorem entries (h : Passed sha256 t journal currency options as involved locked legs)
    (hkeys : ∀ k row, locked.get? k = some row → ∃ id ∈ journal.postings.map Posting.accountId, id.value = k)
    (hall : ∀ v ∈ JournalTransactionsRepository.toPostingRows journal legs.lines, Int8 v.amount ∧ Int8 v.balanceAfter) :
    ∀ e ∈ legs.running.entries, (∃ u, Uuid.parse? e.1 = some u) ∧ Int8 e.2.balance := by
  intro e he
  have hkey : e.1 ∈ legs.running.keys := List.mem_map_of_mem he
  rw [postLegs_keys h.legs] at hkey
  obtain ⟨s, hs⟩ := Keyed.mem_keys_iff.1 hkey
  obtain ⟨i, hi, hk⟩ := hkeys e.1 s hs
  obtain ⟨p, hp, rfl⟩ := List.mem_map.1 hi
  obtain ⟨u, _, hu, -⟩ := h.lock p hp
  refine ⟨⟨u, hk ▸ hu⟩, ?_⟩
  obtain ⟨line, hline, hb⟩ := postLegs_last h.legs (Keyed.get?_eq_some_iff.2 he) ⟨p, hp, hk⟩
  obtain ⟨v, hv, hbal⟩ := JournalTransactionsRepository.exists_row (postLegs_length h.legs) hline
  rw [← hb, ← hbal]
  exact (hall v hv).2

/-- The rows to insert fit their columns just if the legs do. -/
theorem fits_iff (h : Passed sha256 t journal currency options as involved locked legs)
    (hcur : journal.currency = currency) :
    (∀ v ∈ JournalTransactionsRepository.toPostingRows journal legs.lines, Int8 v.amount ∧ Int8 v.balanceAfter) ↔
      Fits t journal.postings := by
  have hsame : ∀ p ∈ journal.postings, p.amount.currency.code = currency.code := hcur ▸ journal.sameCurrency
  constructor
  · intro hall i p u s hp hu hs
    obtain ⟨⟨line, hline, hb⟩, -⟩ := postLegs_upTo hsame h.legs hp (h.locked_row (List.mem_of_getElem? hp) hu hs)
    rw [← hb]
    exact hall _ (List.mem_iff_getElem?.2 ⟨i, JournalTransactionsRepository.getElem?_toPostingRows hp hline⟩)
  · intro hfits v hv
    obtain ⟨i, hi⟩ := List.mem_iff_getElem?.1 hv
    rw [JournalTransactionsRepository.toPostingRows, List.getElem?_zipWith] at hi
    split at hi
    · rename_i p line hp hline
      cases hi
      obtain ⟨u, s, hu, hs, hlock⟩ := h.lock p (List.mem_of_getElem? hp)
      obtain ⟨⟨line', hline', hb⟩, -⟩ := postLegs_upTo hsame h.legs hp hlock
      obtain rfl : line = line' := Option.some.inj (hline.symm.trans hline')
      have hfit := hfits i p u s hp hu hs
      rw [← hb] at hfit
      exact hfit
    · cases hi

end Passed

variable (sha256) in
/-- **How `post` ends.** It returns if nothing refuses the legs, the id is new, one `INSERT`
takes the legs and every amount fits; otherwise it ends in the exception of the first of the
four that fails. -/
theorem post_ends {id : Uuid} (hr : ∀ p ∈ journal.postings, Readable (postgres.view db ws) p.accountId.value)
    (hcur : journal.currency = currency) (hid : Uuid.parse? journal.id = some id)
    (hlink : Linkable (postgres.view db ws) options.reversesTransactionId) :
    postgres.Ends db
      (fun _ _ => (∀ code, ¬ Refuses (postgres.view db ws) journal.postings currency options.requireOwner code) ∧
        (postgres.view db ws).journals.get? id = none ∧ 6 * journal.postings.length ≤ 65535 ∧
        Fits (postgres.view db ws) journal.postings)
      (fun e =>
        (∃ code, e = .posting code ∧ Refuses (postgres.view db ws) journal.postings currency options.requireOwner code) ∨
        ((∀ code, ¬ Refuses (postgres.view db ws) journal.postings currency options.requireOwner code) ∧
          ((e = duplicateId ∧ ((postgres.view db ws).journals.get? id).isSome) ∨
            ((postgres.view db ws).journals.get? id = none ∧
              ((e = tooManyParameters ∧ ¬ 6 * journal.postings.length ≤ 65535) ∨
                (e = outOfRange ∧ 6 * journal.postings.length ≤ 65535 ∧
                  ¬ Fits (postgres.view db ws) journal.postings))))))
      (post sha256 journal currency options) ws := by
  have hsame : ∀ p ∈ journal.postings, p.amount.currency.code = currency.code := hcur ▸ journal.sameCurrency
  simp only [post, Prog.monad_bind, Prog.monad_pure]
  -- the accounts
  have hfind : postgres.Ends db (fun _ _ => True) (fun _ => False)
      (findAccounts (journal.postings.map Posting.accountId)) ws := findAccounts_ends (by
    intro i hi
    obtain ⟨p, hp, rfl⟩ := List.mem_map.1 hi
    exact hr p hp)
  refine Engine.ends_bind (hfind.and_yields.mono (fun accounts mid h => ?_) fun _ h => h.elim)
  obtain ⟨-, hy⟩ := h
  obtain ⟨rfl, hread⟩ := findAccounts_yields hy
  refine Engine.ends_bind (Engine.ends_ofExcept (fun involved hcollect => ?_) fun e he =>
    .inl (collect_refuses options.requireOwner hr hread he))
  obtain ⟨as, rfl, has, hfloors, hbyId⟩ := collect_ok hcollect
  have found := found_of_read hread
  -- the owners
  refine Engine.ends_bind (Engine.ends_ofExcept (fun _ howner => ?_) fun e he =>
    .inl (requireOwner_refuses found (hbyId ▸ he)))
  -- the locks
  have hlock : postgres.Ends db (fun _ _ => True) (fun _ => False)
      (AccountBalancesRepository.lockForUpdate (journal.postings.map Posting.accountId)) mid :=
    AccountBalancesRepository.lockForUpdate_ends (lockable_of_found hr found)
  refine Engine.ends_bind (hlock.and_yields.mono (fun locked mid' h => ?_) fun _ h => h.elim)
  obtain ⟨-, hy⟩ := h
  obtain ⟨rfl, hlocked, hkeys⟩ := AccountBalancesRepository.lockForUpdate_yields hy
  have hlegsLocked := fun p hp => hlocked _ (List.mem_map_of_mem (f := Posting.accountId) (a := p) hp)
  -- the legs
  refine Engine.ends_bind (Engine.ends_ofExcept (fun legs hlegs => ?_) fun e he =>
    .inl (postLegs_refuses options.requireOwner found hsame hlegsLocked (hfloors ▸ he)))
  have passed : Passed sha256 (postgres.view db mid') journal currency options as involved locked legs :=
    ⟨found, has, hfloors, hbyId, howner, hlegsLocked, hlegs⟩
  have hnot := passed.not_refuses hr hcur
  obtain ⟨code, hcode⟩ := passed.code hr hcur
  -- the rows
  refine Engine.ends_bind ((JournalTransactionsRepository.append_ends (postLegs_length hlegs) hid hcode hlink
    fun p hp => passed.account hp).mono (fun _ mid h => ?_) fun e he => .inr ⟨hnot, ?_⟩)
  swap
  · rcases he with ⟨rfl, htaken⟩ | ⟨hfresh, ⟨rfl, hmany⟩ | ⟨rfl, hfew, v, hv, hout⟩⟩
    · exact .inl ⟨rfl, htaken⟩
    · exact .inr ⟨hfresh, .inl ⟨rfl, hmany⟩⟩
    · exact .inr ⟨hfresh, .inr ⟨rfl, hfew, fun hfits => hout ((passed.fits_iff hcur).2 hfits v hv)⟩⟩
  obtain ⟨hfresh, hfew, hall⟩ := h
  -- the balances
  refine Engine.ends_bind ((updateBalances_ends (passed.entries hkeys hall)).mono (fun _ mid' _ => ?_) fun _ h => h.elim)
  -- the event
  refine Engine.ends_bind fun n => ⟨fun _ _ _ => ⟨hnot, hfresh, hfew, (passed.fits_iff hcur).1 hall⟩, fun e he => ?_⟩
  cases he

end LedgerPoster

end MiniLedger
