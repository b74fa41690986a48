import Mathlib.Data.Fintype.Basic
import Mathlib.Logic.Function.Basic
import MiniLedger.Ledger.Runs

/-!
# Conservation against any writer

Writers that know nothing of the domain code: each sends what statements it likes in
transactions of its own, and at `COMMIT` the deferred trigger runs once for each posting it
inserted, every time on the rows committed by then and its own. Others may commit between
two of these checks, and between the last one and the moment the rows become visible.
-/

namespace MiniLedger

open Collections Sessions

/-! ## The trigger and the report -/

/-- The trigger function `assert_transaction_balanced`, for the row `new`. -/
def Tables.assertTransactionBalanced (t : Tables) (new : PostingRow) : Except Failure Unit :=
  require (((t.postingsOf new.transactionId).map PostingRow.amount).sum = 0) "23514" none

/-- The sums of the postings, grouped by the currency of their journal. -/
def AuditRepository.conservationByCurrency (t : Tables) : Keyed String Int :=
  t.postings.foldl (fun totals posting =>
    match t.journals.get? posting.transactionId with
    | some journal => totals.set journal.currency ((totals.get? journal.currency).getD 0 + posting.amount)
    | none => totals) Keyed.empty

structure ConservationEntry where
  currency : String
  total : Int
  deriving DecidableEq, Repr

structure ConservationReport where
  conserved : Bool
  byCurrency : List ConservationEntry
  deriving DecidableEq, Repr

/-- `localeCompare` is the comparison of the runtime's locale. -/
def AuditService.verifyConservation (localeCompare : String → String → Int) (t : Tables) : ConservationReport :=
  let byCurrency := ((AuditRepository.conservationByCurrency t).entries.map fun e => ConservationEntry.mk e.1 e.2).mergeSort
    fun a b => localeCompare a.currency b.currency ≤ 0
  ⟨byCurrency.all fun entry => entry.total == 0, byCurrency⟩

/-- Every journal adds up to nothing. -/
def Balanced (t : Tables) : Prop := ∀ id, ((t.postingsOf id).map PostingRow.amount).sum = 0

/-! ## The writers -/

/-- Where a writer stands. -/
inductive Writer where
  | idle
  /-- in a transaction: its writes and what it holds -/
  | writing (ws : List Write) (held : List Resource)
  /-- `COMMIT` was sent: the rows whose deferred check has not run yet -/
  | committing (ws : List Write) (held : List Resource) (deferred : List PostingRow)

def Writer.held : Writer → List Resource
  | .idle => []
  | .writing _ held => held
  | .committing _ held _ => held

/-- The committed tables, the sequence, and the writers on them. -/
structure Writers (ι : Type) where
  db : Tables
  seq : Nat
  writer : ι → Writer

/-- What a writer may do next. -/
inductive WriterEvent (ι : Type) where
  | begin_ (i : ι)
  | send (i : ι) (s : Stmt)
  | commit (i : ι)
  /-- the next deferred check, or the end of the commit -/
  | settle (i : ι)
  | rollback (i : ι)

namespace Writers

variable {ι : Type} [DecidableEq ι]

def goto (c : Writers ι) (i : ι) (writer : Writer) : Writers ι :=
  { c with writer := Function.update c.writer i writer }

/-- Another transaction holds what the statement needs. -/
def Blocked (c : Writers ι) (i : ι) (s : Stmt) : Prop := ∃ j, j ≠ i ∧ ∃ r ∈ s.needs, r ∈ (c.writer j).held

instance [Fintype ι] (c : Writers ι) (i : ι) (s : Stmt) : Decidable (c.Blocked i s) :=
  inferInstanceAs (Decidable (∃ j, j ≠ i ∧ ∃ r ∈ s.needs, r ∈ (c.writer j).held))

/-- A statement that fails, and a check that fails, end the transaction. -/
def step [Fintype ι] (c : Writers ι) : WriterEvent ι → Option (Writers ι)
  | .begin_ i =>
    match c.writer i with
    | .idle => some (c.goto i (.writing [] []))
    | _ => none
  | .send i s =>
    match c.writer i with
    | .writing ws held =>
      if c.Blocked i s then none else
      match s.exec c.seq (postgres.view c.db ws) with
      | .ok (ans, new) => some { c.goto i (.writing (ws ++ new) (held ++ s.locks ans)) with seq := c.seq + s.draws }
      | .error _ => some { c.goto i .idle with seq := c.seq + s.draws }
    | _ => none
  | .commit i =>
    match c.writer i with
    | .writing ws held => some (c.goto i (.committing ws held (ws.filterMap Write.posting?)))
    | _ => none
  | .settle i =>
    match c.writer i with
    | .committing ws held (new :: deferred) =>
      match Tables.assertTransactionBalanced (postgres.view c.db ws) new with
      | .ok () => some (c.goto i (.committing ws held deferred))
      | .error _ => some (c.goto i .idle)
    | .committing ws _ [] => some { c.goto i .idle with db := postgres.view c.db ws }
    | _ => none
  | .rollback i =>
    match c.writer i with
    | .idle => none
    | _ => some (c.goto i .idle)

/-- The configuration a list of events leads to, if each can happen. -/
def run [Fintype ι] (c : Writers ι) : List (WriterEvent ι) → Option (Writers ι)
  | [] => some c
  | e :: es => (c.step e).bind fun c' => c'.run es

/-- The configurations the writers lead to from tables at rest. -/
inductive Reachable [Fintype ι] (start : postgres.World) : Writers ι → Prop where
  | start : Reachable start ⟨start.db, start.seq, fun _ => .idle⟩
  | step {c c'} (e : WriterEvent ι) : Reachable start c → c.step e = some c' → Reachable start c'

theorem Reachable.run [Fintype ι] {start : postgres.World} {c c' : Writers ι} (h : Reachable start c)
    {es : List (WriterEvent ι)} (hrun : c.run es = some c') : Reachable start c' := by
  induction es generalizing c with
  | nil => cases hrun; exact h
  | cons e es ih =>
    obtain ⟨next, hstep, hrest⟩ := Option.bind_eq_some_iff.1 hrun
    exact ih (h.step e hstep) hrest

/-! ## What a transaction contributes -/

/-- What the writes of one transaction add to the journal `id`. -/
def contribution (ws : List Write) (id : Uuid) : Int :=
  (((ws.filterMap Write.posting?).filter fun p => p.transactionId = id).map PostingRow.amount).sum

theorem view_postingsOf (db : Tables) (ws : List Write) (id : Uuid) :
    (((postgres.view db ws).postingsOf id).map PostingRow.amount).sum =
      ((db.postingsOf id).map PostingRow.amount).sum + contribution ws id := by
  rw [Tables.postingsOf, view_postings, List.filter_append, List.map_append, List.sum_append]
  rfl

theorem contribution_untouched {ws : List Write} {id : Uuid}
    (h : ∀ p ∈ ws.filterMap Write.posting?, p.transactionId ≠ id) : contribution ws id = 0 := by
  rw [contribution, List.filter_eq_nil_iff.2]
  · rfl
  · intro p hp hid
    exact h p hp (of_decide_eq_true hid)

/-- The checks a committing transaction has behind it have found that it contributes nothing. -/
def Settled : Writer → Prop
  | .committing ws _ deferred =>
    ∀ p ∈ ws.filterMap Write.posting?, p ∈ deferred ∨ contribution ws p.transactionId = 0
  | _ => True

/-- The invariant: what is committed is balanced, and so is what checks have passed. -/
structure Conserving (c : Writers ι) : Prop where
  balanced : Balanced c.db
  settled : ∀ i, Settled (c.writer i)

theorem Conserving.goto {c : Writers ι} (h : c.Conserving) {i : ι} {writer : Writer} (hw : Settled writer) :
    (c.goto i writer).Conserving where
  balanced := h.balanced
  settled j := by
    show Settled (Function.update c.writer i writer j)
    by_cases hj : j = i
    · subst hj
      rw [Function.update_self]
      exact hw
    · rw [Function.update_of_ne hj]
      exact h.settled j

theorem Conserving.goto_seq {c : Writers ι} (h : c.Conserving) {i : ι} {writer : Writer} {seq : Nat} (hw : Settled writer) :
    Conserving { c.goto i writer with seq := seq } :=
  ⟨h.balanced, (h.goto hw).settled⟩

/-- A check that passes on a balanced database is one of the transaction's own rows. -/
theorem contribution_of_check {db : Tables} {ws : List Write} {new : PostingRow} (hb : Balanced db)
    (h : Tables.assertTransactionBalanced (postgres.view db ws) new = .ok ()) : contribution ws new.transactionId = 0 := by
  rw [Tables.assertTransactionBalanced, require_ok, view_postingsOf, hb, Int.zero_add] at h
  exact h

/-- A transaction that contributes nothing to any journal leaves all of them balanced. -/
theorem balanced_view {db : Tables} {ws : List Write} (hb : Balanced db)
    (h : ∀ p ∈ ws.filterMap Write.posting?, contribution ws p.transactionId = 0) : Balanced (postgres.view db ws) := by
  intro id
  rw [view_postingsOf, hb id, Int.zero_add]
  by_cases htouched : ∃ p ∈ ws.filterMap Write.posting?, p.transactionId = id
  · obtain ⟨p, hp, rfl⟩ := htouched
    exact h p hp
  · exact contribution_untouched fun p hp hid => htouched ⟨p, hp, hid⟩

theorem Conserving.step [Fintype ι] {c c' : Writers ι} {e : WriterEvent ι} (h : c.Conserving) (hs : c.step e = some c') :
    c'.Conserving := by
  cases e with
  | begin_ i =>
    simp only [Writers.step] at hs
    split at hs
    · cases hs; exact h.goto trivial
    · cases hs
  | send i s =>
    simp only [Writers.step] at hs
    split at hs
    · split at hs
      · cases hs
      · split at hs
        · cases hs
          exact h.goto_seq trivial
        · cases hs
          exact h.goto_seq trivial
    · cases hs
  | commit i =>
    simp only [Writers.step] at hs
    split at hs
    · cases hs
      exact h.goto fun p hp => .inl hp
    · cases hs
  | settle i =>
    simp only [Writers.step] at hs
    have hsettled := h.settled i
    split at hs
    · rename_i ws held new deferred hw
      rw [hw] at hsettled
      split at hs
      · rename_i hcheck
        cases hs
        refine h.goto fun p hp => ?_
        rcases hsettled p hp with hmem | hzero
        · rcases List.mem_cons.1 hmem with rfl | hmem
          · exact .inr (contribution_of_check h.balanced hcheck)
          · exact .inl hmem
        · exact .inr hzero
      · cases hs
        exact h.goto trivial
    · rename_i ws held hw
      rw [hw] at hsettled
      cases hs
      have hidle : (c.goto i .idle).Conserving := h.goto trivial
      refine ⟨balanced_view h.balanced fun p hp => ?_, hidle.settled⟩
      rcases hsettled p hp with hmem | hzero
      · exact absurd hmem List.not_mem_nil
      · exact hzero
    · cases hs
  | rollback i =>
    simp only [Writers.step] at hs
    split at hs
    · cases hs
    · cases hs; exact h.goto trivial

theorem Reachable.conserving [Fintype ι] {start : postgres.World} {c : Writers ι} (h : Reachable start c)
    (h0 : Balanced start.db) : c.Conserving := by
  induction h with
  | start => exact ⟨h0, fun _ => trivial⟩
  | step e _ hs ih => exact ih.step hs

end Writers

/-! ## The report -/

/-- The currency of a posting: that of its journal. -/
def Tables.currencyOf (t : Tables) (posting : PostingRow) : Option String :=
  (t.journals.get? posting.transactionId).map JournalRow.currency

/-- What the postings in `currency` add up to. -/
def Tables.totalIn (t : Tables) (rows : List PostingRow) (currency : String) : Int :=
  ((rows.filter fun p => t.currencyOf p = some currency).map PostingRow.amount).sum

theorem Tables.totalIn_cons (t : Tables) (p : PostingRow) (ps : List PostingRow) (currency : String) :
    t.totalIn (p :: ps) currency = (if t.currencyOf p = some currency then p.amount else 0) + t.totalIn ps currency := by
  by_cases h : t.currencyOf p = some currency
  · rw [Tables.totalIn, List.filter_cons_of_pos (by simpa using h), List.map_cons, List.sum_cons, if_pos h, Tables.totalIn]
  · rw [Tables.totalIn, List.filter_cons_of_neg (by simpa using h), if_neg h, Int.zero_add, Tables.totalIn]

theorem Tables.totalIn_none {t : Tables} {rows : List PostingRow} {currency : String}
    (h : ¬ ∃ p ∈ rows, t.currencyOf p = some currency) : t.totalIn rows currency = 0 := by
  rw [Tables.totalIn, List.filter_eq_nil_iff.2 fun p hp hc => h ⟨p, hp, of_decide_eq_true hc⟩]
  rfl

/-- The report lists each currency that has postings, once, with what they add up to. -/
structure ConservationReport.Sums (t : Tables) (report : ConservationReport) : Prop where
  once : (report.byCurrency.map ConservationEntry.currency).Nodup
  entry : ∀ currency total, ⟨currency, total⟩ ∈ report.byCurrency ↔
    (∃ p ∈ t.postings, t.currencyOf p = some currency) ∧ total = t.totalIn t.postings currency

/-- Each class of the grouped sum. -/
theorem conservationByCurrency_get? (t : Tables) (rows : List PostingRow) (start : Keyed String Int) (currency : String) :
    (rows.foldl (fun totals posting =>
      match t.journals.get? posting.transactionId with
      | some journal => totals.set journal.currency ((totals.get? journal.currency).getD 0 + posting.amount)
      | none => totals) start).get? currency =
      if ∃ p ∈ rows, t.currencyOf p = some currency then
        some ((start.get? currency).getD 0 + t.totalIn rows currency) else start.get? currency := by
  induction rows generalizing start with
  | nil => simp
  | cons p ps ih =>
    simp only [List.foldl_cons, ih, List.exists_mem_cons_iff, Tables.totalIn_cons]
    cases hj : t.journals.get? p.transactionId with
    | none => simp [Tables.currencyOf, hj]
    | some journal =>
      have hp : t.currencyOf p = some currency ↔ journal.currency = currency := by
        rw [Tables.currencyOf, hj, Option.map_some, Option.some.injEq]
      by_cases hc : journal.currency = currency
      · have hset : (start.set journal.currency ((start.get? journal.currency).getD 0 + p.amount)).get? currency =
            some ((start.get? currency).getD 0 + p.amount) := by
          rw [hc, Keyed.get?_set_self]
        simp only [hp.2 hc, true_or, if_true, hset, Option.getD_some]
        split
        · rw [Int.add_assoc]
        · -- no later posting is in the currency, so the rest adds nothing
          rename_i hnone
          rw [Tables.totalIn_none hnone, Int.add_zero]
      · simp only [hp, hc, false_or, if_false, Int.zero_add, Keyed.get?_set_of_ne _ _ (Ne.symm hc)]

theorem verifyConservation_sums (localeCompare : String → String → Int) (t : Tables) :
    (AuditService.verifyConservation localeCompare t).Sums t := by
  have hperm : (AuditService.verifyConservation localeCompare t).byCurrency.Perm
      ((AuditRepository.conservationByCurrency t).entries.map fun e => ConservationEntry.mk e.1 e.2) :=
    List.mergeSort_perm _ _
  constructor
  · rw [(hperm.map _).nodup_iff, List.map_map]
    exact (AuditRepository.conservationByCurrency t).nodup
  · intro currency total
    have hget := conservationByCurrency_get? t t.postings Keyed.empty currency
    rw [Keyed.get?_empty, Option.getD_none, Int.zero_add] at hget
    calc (⟨currency, total⟩ : ConservationEntry) ∈ (AuditService.verifyConservation localeCompare t).byCurrency
        ↔ (currency, total) ∈ (AuditRepository.conservationByCurrency t).entries := by
          rw [hperm.mem_iff, List.mem_map]
          simp
      _ ↔ (AuditRepository.conservationByCurrency t).get? currency = some total := Keyed.get?_eq_some_iff.symm
      _ ↔ _ := by
          rw [AuditRepository.conservationByCurrency, hget]
          split
          · rename_i hsome
            rw [Option.some.injEq, and_iff_right hsome, eq_comm]
          · rename_i hnone
            simp [hnone]

/-- On a balanced ledger the auditor finds nothing in any currency. -/
theorem Balanced.verifyConservation {t : Tables} (h : Balanced t) (localeCompare : String → String → Int) :
    (AuditService.verifyConservation localeCompare t).conserved = true ∧
      ∀ entry ∈ (AuditService.verifyConservation localeCompare t).byCurrency, entry.total = 0 := by
  have htotal : ∀ entry ∈ (AuditService.verifyConservation localeCompare t).byCurrency, entry.total = 0 := by
    intro entry hentry
    rw [(((verifyConservation_sums localeCompare t).entry entry.currency entry.total).1 hentry).2]
    exact sum_classes_eq_zero PostingRow.transactionId PostingRow.amount
      (fun id => decide ((t.journals.get? id).map JournalRow.currency = some entry.currency)) h
  refine ⟨List.all_eq_true.2 fun entry hentry => ?_, htotal⟩
  rw [htotal entry hentry]
  rfl

theorem balanced_migrated (ids : WorldIds) (createdAt : Nat) (entrySize : String → Nat) :
    Balanced (migrated ids createdAt entrySize).db := fun _ => rfl

/-- **Conservation against any writer.** Whatever statements any number of writers send and
however their commits interleave, every journal of every committed state adds up to nothing,
and the auditor, who lists every currency with postings, reports it conserved in each. -/
theorem writers_conserve {ι : Type} [DecidableEq ι] [Fintype ι] {ids : WorldIds} {createdAt : Nat}
    {entrySize : String → Nat} {c : Writers ι} (h : Writers.Reachable (migrated ids createdAt entrySize) c)
    (localeCompare : String → String → Int) :
    Balanced c.db ∧ (AuditService.verifyConservation localeCompare c.db).conserved = true ∧
      (∀ entry ∈ (AuditService.verifyConservation localeCompare c.db).byCurrency, entry.total = 0) ∧
      (AuditService.verifyConservation localeCompare c.db).Sums c.db := by
  have hbalanced := (h.conserving (balanced_migrated ids createdAt entrySize)).balanced
  obtain ⟨hconserved, htotal⟩ := hbalanced.verifyConservation localeCompare
  exact ⟨hbalanced, hconserved, htotal, verifyConservation_sums localeCompare c.db⟩

/-- A posting into the journal `deposit`, with whatever hash its writer likes. -/
def Sample.scribble (account : Uuid) (amount : Int) : Stmt :=
  .insertPosting ⟨deposit.text, account.text, amount, 0, none, "scribble"⟩

/-- A journal without postings is committed; then two writers add to it at once, and each
runs its checks before the other's rows are visible. -/
def Sample.scribbles : List (WriterEvent (Fin 2)) :=
  [.begin_ one, .send one (.insertJournal ⟨deposit.text, some "USD", none⟩), .commit one, .settle one,
    .begin_ one, .begin_ other, .send one (scribble usd 5), .send other (scribble eur (-7)),
    .send one (scribble eur (-5)), .send other (scribble usd 7), .commit one, .commit other,
    .settle one, .settle other, .settle one, .settle other, .settle one, .settle other]

theorem writers_conserve_scribbles :
    ∃ c, (Writers.mk (migrated Sample.worldIds 0 Sample.entrySize).db 1 fun _ => Writer.idle).run Sample.scribbles = some c ∧
      c.db.postings.map PostingRow.amount = [5, -5, -7, 7] ∧
      (AuditService.verifyConservation (fun _ _ => 0) c.db).conserved = true ∧
      ⟨"USD", 0⟩ ∈ (AuditService.verifyConservation (fun _ _ => 0) c.db).byCurrency := by
  have hrun : ((Writers.mk (migrated Sample.worldIds 0 Sample.entrySize).db 1 fun _ => Writer.idle).run Sample.scribbles).map
      (fun c => (c.db.postings.map PostingRow.amount, c.db.postings.map c.db.currencyOf)) =
        some ([5, -5, -7, 7], List.replicate 4 (some "USD")) := by decide +kernel
  obtain ⟨c, hc, hrows⟩ := Option.map_eq_some_iff.1 hrun
  obtain ⟨hamounts, hcurrencies⟩ := Prod.mk.inj hrows
  have hreach : Writers.Reachable (migrated Sample.worldIds 0 Sample.entrySize) c := Writers.Reachable.start.run hc
  obtain ⟨-, hconserved, htotal, hsums⟩ := writers_conserve hreach fun _ _ => 0
  refine ⟨c, hc, hamounts, hconserved, ?_⟩
  obtain ⟨p, hp, hcurrency⟩ : ∃ p ∈ c.db.postings, c.db.currencyOf p = some "USD" :=
    List.mem_map.1 (hcurrencies ▸ List.mem_replicate.2 ⟨by decide, rfl⟩)
  have hlisted := (hsums.entry "USD" _).2 ⟨⟨p, hp, hcurrency⟩, rfl⟩
  rwa [show c.db.totalIn c.db.postings "USD" = 0 from htotal _ hlisted] at hlisted

end MiniLedger
