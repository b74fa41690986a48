import MiniLedger.Ledger.Runs

/-!
# The order of `seq`

A run alone takes its values of `seq` one after another, so the table of postings is in
`seq` order and `ORDER BY seq` gives it as it stands.
-/

namespace MiniLedger

open Sessions

variable {sha256 : String → String} {w w' : postgres.World}

/-- Strictly ascending in `seq`. -/
def Ascending (rows : List PostingRow) : Prop := rows.Pairwise fun p q => p.seq < q.seq

theorem bySeq_of_ascending {rows : List PostingRow} (h : Ascending rows) : Tables.bySeq rows = rows :=
  List.Pairwise.insertionSort_eq (h.imp fun hlt => hlt.le)

/-- Rows above all others come last in `seq` order. -/
theorem bySeq_append {rows new : List PostingRow} (hnew : Ascending new) (h : ∀ p ∈ rows, ∀ q ∈ new, p.seq < q.seq) :
    Tables.bySeq (rows ++ new) = Tables.bySeq rows ++ new := by
  have insert : ∀ (p : PostingRow) (sorted : List PostingRow), (∀ q ∈ new, p.seq < q.seq) →
      (sorted ++ new).orderedInsert (fun p q => p.seq ≤ q.seq) p =
        sorted.orderedInsert (fun p q => p.seq ≤ q.seq) p ++ new := by
    intro p sorted hp
    induction sorted with
    | nil =>
      cases new with
      | nil => rfl
      | cons q qs => rw [List.nil_append, List.orderedInsert_cons, if_pos (hp q (List.mem_cons_self ..)).le]; rfl
    | cons r rs ih =>
      rw [List.cons_append, List.orderedInsert_cons, List.orderedInsert_cons, ih]
      split <;> rfl
  induction rows with
  | nil => exact bySeq_of_ascending hnew
  | cons p ps ih =>
    rw [List.forall_mem_cons] at h
    show (Tables.bySeq (ps ++ new)).orderedInsert _ p = (Tables.bySeq ps).orderedInsert _ p ++ new
    rw [ih h.2]
    exact insert p _ h.1

/-- A statement inserts no posting, or one with the value of the sequence it draws. -/
theorem exec_posting {s : Stmt} {n : Nat} {t : Tables} {ans : s.Ans} {new : List Write}
    (h : Stmt.exec s n t = .ok (ans, new)) :
    new.filterMap Write.posting? = [] ∨ ∃ row, new.filterMap Write.posting? = [row] ∧ row.seq = n ∧ s.draws = 1 := by
  cases s with
  | insertPosting v =>
    have hdraws := draws_insertPosting h
    obtain ⟨tid, -, aid, -, -, -, -, -, rfl⟩ := exec_insertPosting.1 h
    exact .inr ⟨_, rfl, rfl, hdraws⟩
  | insertAccount v => obtain ⟨_, -, -, -, -, _, -, -, -, -, rfl⟩ := exec_insertAccount.1 h; exact .inl rfl
  | insertBalance a => obtain ⟨_, -, -, -, rfl⟩ := exec_insertBalance.1 h; exact .inl rfl
  | lockBalance a => obtain ⟨_, -, -, rfl⟩ := (exec_lockBalance (n := n)).1 h; exact .inl rfl
  | updateBalance a x c =>
    obtain ⟨_, -, -, rfl⟩ := (exec_updateBalance (n := n)).1 h
    split <;> exact .inl rfl
  | insertJournal v => obtain ⟨_, -, _, -, _, -, -, -, -, rfl⟩ := (exec_insertJournal (n := n)).1 h; exact .inl rfl
  | insertKey k f =>
    obtain ⟨-, hrow⟩ := (exec_insertKey (n := n)).1 h
    split at hrow
    · obtain ⟨-, rfl⟩ := hrow; exact .inl rfl
    · obtain ⟨-, -, rfl⟩ := hrow; exact .inl rfl
  | completeKey k i r =>
    obtain ⟨_, -, -, ⟨-, rfl⟩ | ⟨_, -, -, rfl⟩⟩ := (exec_completeKey (n := n)).1 h <;> exact .inl rfl
  | insertOutbox ty p => obtain rfl := (exec_insertOutbox (n := n) (t := t)).1 h; exact .inl rfl

/-- The postings among `ws` have ascending values of `seq`, from `lo` on and below `hi`. -/
def Drawn (lo : Nat) (ws : List Write) (hi : Nat) : Prop :=
  Ascending (ws.filterMap Write.posting?) ∧ ∀ p ∈ ws.filterMap Write.posting?, lo ≤ p.seq ∧ p.seq < hi

theorem Drawn.step {lo hi : Nat} {ws : List Write} {s : Stmt} {t : Tables} {ans : s.Ans} {new : List Write}
    (h : Drawn lo ws hi) (hlo : lo ≤ hi) (hx : Stmt.exec s hi t = .ok (ans, new)) :
    Drawn lo (ws ++ new) (hi + s.draws) := by
  unfold Drawn
  rw [List.filterMap_append]
  rcases exec_posting hx with hnone | ⟨row, hrow, hseq, hdraws⟩
  · rw [hnone, List.append_nil]
    exact ⟨h.1, fun p hp => ⟨(h.2 p hp).1, (h.2 p hp).2.trans_le (Nat.le_add_right _ _)⟩⟩
  · rw [hrow, hdraws]
    constructor
    · refine List.pairwise_append.2 ⟨h.1, List.pairwise_singleton _ _, fun p hp q hq => ?_⟩
      rw [List.mem_singleton.1 hq, hseq]
      exact (h.2 p hp).2
    · intro p hp
      rcases List.mem_append.1 hp with hp | hp
      · exact ⟨(h.2 p hp).1, (h.2 p hp).2.trans_le (Nat.le_add_right _ _)⟩
      · rw [List.mem_singleton.1 hp, hseq]
        exact ⟨hlo, Nat.lt_succ_self _⟩

/-- What a program alone adds to the writes before it has its postings ascending. -/
theorem run_drawn {α : Type} {db : Tables} {p : InTx α} {lo n n' : Nat} {ws new ws' : List Write} {a : α}
    (h : postgres.run db p (ws ++ new) n = (.ok (a, ws'), n')) (hd : Drawn lo new n) (hlo : lo ≤ n) :
    ∃ new', ws' = ws ++ new' ∧ Drawn lo new' n' := by
  induction p generalizing new n with
  | pure a => cases h; exact ⟨new, rfl, hd⟩
  | throw e => cases h
  | query q k ih =>
    simp only [Engine.run] at h
    split at h
    · exact ih _ h hd hlo
    · cases h
  | stmt s k ih =>
    simp only [Engine.run] at h
    split at h
    · rename_i ans more hx
      rw [List.append_assoc] at h
      exact ih _ h (hd.step hlo hx) (hlo.trans (Nat.le_add_right _ _))
    · cases h

theorem drawn_nil (n : Nat) : Drawn n [] n := ⟨List.Pairwise.nil, by simp⟩

/-- The postings are in `seq` order, below the next value. -/
def InOrder (w : postgres.World) : Prop := Ascending w.db.postings ∧ ∀ p ∈ w.db.postings, p.seq < w.seq

theorem InOrder.serve (h : InOrder w) (request : Request) : InOrder (serve sha256 request w).2 := by
  obtain ⟨hle, hdb | ⟨body, recover, r, ws, -, hrun, -, -, hdb⟩⟩ := postgres.serve_run (request.call sha256) w
  · refine ⟨?_, fun p hp => ?_⟩
    · rw [MiniLedger.serve, hdb]; exact h.1
    · rw [MiniLedger.serve, hdb] at hp
      exact (h.2 p hp).trans_le hle
  · obtain ⟨new, hnew, hd⟩ := @run_drawn _ _ _ _ _ _ [] _ _ _ hrun (drawn_nil w.seq) le_rfl
    obtain rfl : ws = new := hnew
    rw [InOrder, MiniLedger.serve, hdb, view_postings]
    constructor
    · refine List.pairwise_append.2 ⟨h.1, hd.1, fun p hp q hq => ?_⟩
      exact (h.2 p hp).trans_le (hd.2 q hq).1
    · intro p hp
      rcases List.mem_append.1 hp with hp | hp
      · exact (h.2 p hp).trans_le hle
      · exact (hd.2 p hp).2

theorem InOrder.serially (h : InOrder w) (requests : List Request) : InOrder (serially sha256 requests w) := by
  induction requests generalizing w with
  | nil => exact h
  | cons r rs ih => exact ih (h.serve r)

theorem Reachable.inOrder {P : Tables → Request → Prop} (h : Reachable sha256 P w) : InOrder w := by
  obtain ⟨ids, createdAt, entrySize, hs⟩ := h
  induction hs with
  | refl => exact ⟨List.Pairwise.nil, by simp [migrated]⟩
  | step request _ _ ih => exact ih.serve request

/-! ## The order that counts

Among many clients values of `seq` reach the table out of order. What the code relies on is
the order within an account and within a transaction. -/

/-- The postings of each account and of each transaction ascend. -/
def Ordered (rows : List PostingRow) : Prop :=
  rows.Pairwise fun p q => p.accountId = q.accountId ∨ p.transactionId = q.transactionId → p.seq < q.seq

theorem Ordered.bySeq_postingsFor {t : Tables} (h : Ordered t.postings) (u : Uuid) :
    Tables.bySeq (t.postingsFor u) = t.postingsFor u := by
  refine bySeq_of_ascending ?_
  refine (h.filter (p := fun p => decide (p.accountId = u))).imp_of_mem fun hp hq hlt => hlt (.inl ?_)
  rw [of_decide_eq_true (List.mem_filter.1 hp).2, of_decide_eq_true (List.mem_filter.1 hq).2]

theorem Ordered.bySeq_postingsOf {t : Tables} (h : Ordered t.postings) (id : Uuid) :
    Tables.bySeq (t.postingsOf id) = t.postingsOf id := by
  refine bySeq_of_ascending ?_
  refine (h.filter (p := fun p => decide (p.transactionId = id))).imp_of_mem fun hp hq hlt => hlt (.inr ?_)
  rw [of_decide_eq_true (List.mem_filter.1 hp).2, of_decide_eq_true (List.mem_filter.1 hq).2]

theorem Ascending.ordered {rows : List PostingRow} (h : Ascending rows) : Ordered rows := by
  refine List.Pairwise.imp ?_ h
  intro p q hlt _
  exact hlt

end MiniLedger
