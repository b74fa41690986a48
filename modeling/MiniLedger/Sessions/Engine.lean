import MiniLedger.Sessions.Program

/-!
# A transactional store, used by one client at a time

An `Engine` gives queries and statements their meaning on the tables a transaction sees:
the committed tables with its own writes applied (`view`). `run` is the program of one
transaction against fixed committed tables, `serve` a whole client call against a `World`.
`Yields` is the success half of `run` as a relation with one equation per program form;
every fact about what a call may commit is read off it.
-/

namespace Sessions

/-- The store's side of `I`. A statement may draw values from the sequence counter, which
no rollback rewinds, and may have to wait for resources other transactions hold. -/
structure Engine (I : Interface) (ε : Type) where
  Tables : Type
  Write : Type
  Resource : Type
  /-- Reasons for which the store ends a transaction on its own. -/
  Kill : Type
  apply : Tables → Write → Tables
  answer : (q : I.Query) → Tables → Except ε (I.Row q)
  /-- The answer and the writes of a statement, given the next sequence value. -/
  exec : (s : I.Stmt) → Nat → Tables → Except ε (I.Ans s × List Write)
  draws : I.Stmt → Nat
  /-- What no other transaction may hold while the statement runs. -/
  needs : I.Stmt → List Resource
  /-- What the statement leaves held to the end of the transaction. -/
  locks : (s : I.Stmt) → I.Ans s → List Resource
  locks_needed : ∀ s ans, locks s ans ⊆ needs s
  /-- The constraints deferred to commit, on the tables the transaction sees. -/
  settle : Tables → List Write → Except ε Unit
  killed : Kill → ε

namespace Engine

variable {I : Interface} {ε α β ρ : Type} (E : Engine I ε)

/-- The committed tables and the sequence counter. -/
structure World where
  db : E.Tables
  seq : Nat

def view (db : E.Tables) (ws : List E.Write) : E.Tables := ws.foldl E.apply db

@[simp] theorem view_nil (db : E.Tables) : E.view db [] = db := rfl

@[simp] theorem view_append (db : E.Tables) (ws new : List E.Write) :
    E.view db (ws ++ new) = E.view (E.view db ws) new := List.foldl_append

theorem view_cons (db : E.Tables) (w : E.Write) (ws : List E.Write) :
    E.view db (w :: ws) = E.view (E.apply db w) ws := rfl

/-- Reads on the committed tables, outside a transaction. -/
def read (db : E.Tables) : Prog I.readOnly ε α → Except ε α
  | .pure a => .ok a
  | .throw e => .error e
  | .query q k =>
    match E.answer q db with
    | .ok row => read db (k row)
    | .error e => .error e
  | .stmt s _ => nomatch s

/-- Reads outside a transaction while others commit: the first meets the tables
`snapshots 0`, the next `snapshots 1`, and so on. -/
def readOver : Prog I.readOnly ε α → (Nat → E.Tables) → Except ε α
  | .pure a, _ => .ok a
  | .throw e, _ => .error e
  | .query q k, snapshots =>
    match E.answer q (snapshots 0) with
    | .ok row => readOver (k row) fun i => snapshots (i + 1)
    | .error e => .error e
  | .stmt s _, _ => nomatch s

/-- What is done with the result of the reads reads nothing more. -/
theorem readOver_map (p : Prog I.readOnly ε α) (g : α → β) (snapshots : Nat → E.Tables) :
    E.readOver (p.bind fun a => .pure (g a)) snapshots = (E.readOver p snapshots).map g := by
  induction p generalizing snapshots with
  | pure a => rfl
  | throw e => rfl
  | query q k ih =>
    simp only [Prog.query_bind, readOver]
    cases E.answer q (snapshots 0) with
    | ok row => exact ih row _
    | error e => rfl
  | stmt s k => exact nomatch s

/-- A program alone in a transaction that has written `ws`, with the counter at `n`. -/
def run (db : E.Tables) : Prog I ε α → List E.Write → Nat → Except ε (α × List E.Write) × Nat
  | .pure a, ws, n => (.ok (a, ws), n)
  | .throw e, _, n => (.error e, n)
  | .query q k, ws, n =>
    match E.answer q (E.view db ws) with
    | .ok row => run db (k row) ws n
    | .error e => (.error e, n)
  | .stmt s k, ws, n =>
    match E.exec s n (E.view db ws) with
    | .ok (ans, new) => run db (k ans) (ws ++ new) (n + E.draws s)
    | .error e => (.error e, n + E.draws s)

/-- One transaction, alone: commit what `body` wrote if it returns and the deferred
constraints hold, otherwise keep the tables. -/
def transact (body : Prog I ε ρ) (w : E.World) : Except ε ρ × E.World :=
  match E.run w.db body [] w.seq with
  | (.error e, n) => (.error e, { w with seq := n })
  | (.ok (r, ws), n) =>
    match E.settle (E.view w.db ws) ws with
    | .ok () => (.ok r, ⟨E.view w.db ws, n⟩)
    | .error e => (.error e, { w with seq := n })

/-- One client call, alone. -/
def serve (call : Call I ε ρ) (w : E.World) : Except ε ρ × E.World :=
  match E.read w.db call with
  | .error e => (.error e, w)
  | .ok (.reply r) => (.ok r, w)
  | .ok (.transaction body recover) =>
    match E.transact body w with
    | (.ok r, w') => (.ok r, w')
    | (.error e, w') => (recover e, w')

/-- On committed tables `db`, after the writes `ws`, the program returns `b` with the
writes `ws'`, for some values of the sequence counter. -/
def Yields (db : E.Tables) : Prog I ε α → List E.Write → α → List E.Write → Prop
  | .pure a, ws, b, ws' => b = a ∧ ws' = ws
  | .throw _, _, _, _ => False
  | .query q k, ws, b, ws' =>
    ∃ row, E.answer q (E.view db ws) = .ok row ∧ Yields db (k row) ws b ws'
  | .stmt s k, ws, b, ws' =>
    ∃ n ans new, E.exec s n (E.view db ws) = .ok (ans, new) ∧ Yields db (k ans) (ws ++ new) b ws'

variable {E} {db : E.Tables} {ws ws' : List E.Write}

@[simp] theorem yields_pure {a b : α} :
    E.Yields db (.pure a : Prog I ε α) ws b ws' ↔ b = a ∧ ws' = ws := Iff.rfl

@[simp] theorem yields_throw {e : ε} {b : α} :
    E.Yields db (.throw e : Prog I ε α) ws b ws' ↔ False := Iff.rfl

theorem yields_bind {p : Prog I ε α} {f : α → Prog I ε β} {ws ws' : List E.Write} {b : β} :
    E.Yields db (p.bind f) ws b ws' ↔
      ∃ a mid, E.Yields db p ws a mid ∧ E.Yields db (f a) mid b ws' := by
  induction p generalizing ws with
  | pure a =>
    constructor
    · intro h; exact ⟨a, ws, ⟨rfl, rfl⟩, h⟩
    · rintro ⟨_, _, ⟨rfl, rfl⟩, h⟩; exact h
  | throw e => simp
  | query q k ih =>
    simp only [Prog.query_bind, Yields, ih]
    constructor
    · rintro ⟨row, hrow, a, mid, h, h'⟩
      exact ⟨a, mid, ⟨row, hrow, h⟩, h'⟩
    · rintro ⟨a, mid, ⟨row, hrow, h⟩, h'⟩
      exact ⟨row, hrow, a, mid, h, h'⟩
  | stmt s k ih =>
    simp only [Prog.stmt_bind, Yields, ih]
    constructor
    · rintro ⟨n, ans, new, hexec, a, mid, h, h'⟩
      exact ⟨a, mid, ⟨n, ans, new, hexec, h⟩, h'⟩
    · rintro ⟨a, mid, ⟨n, ans, new, hexec, h⟩, h'⟩
      exact ⟨n, ans, new, hexec, a, mid, h, h'⟩

theorem yields_send {s : I.Stmt} {ans : I.Ans s} :
    E.Yields db (Prog.send s) ws ans ws' ↔
      ∃ n new, E.exec s n (E.view db ws) = .ok (ans, new) ∧ ws' = ws ++ new := by
  simp only [Prog.send, Yields]
  constructor
  · rintro ⟨n, _, new, h, rfl, rfl⟩; exact ⟨n, new, h, rfl⟩
  · rintro ⟨n, new, h, rfl⟩; exact ⟨n, _, new, h, rfl, rfl⟩

theorem yields_ofExcept {r : Except ε α} {b : α} :
    E.Yields db (Prog.ofExcept r : Prog I ε α) ws b ws' ↔ r = .ok b ∧ ws' = ws := by
  cases r with
  | ok a => simp [Prog.ofExcept, eq_comm]
  | error e => simp [Prog.ofExcept]

theorem read_bind {db : E.Tables} {p : Prog I.readOnly ε α} {f : α → Prog I.readOnly ε β} :
    E.read db (p.bind f) = (E.read db p).bind fun a => E.read db (f a) := by
  induction p with
  | pure a => rfl
  | throw e => rfl
  | query q k ih =>
    simp only [Prog.query_bind, read]
    cases E.answer q db with
    | ok row => exact ih row
    | error e => rfl
  | stmt s k => exact nomatch s

/-- A lifted program of queries reads the transaction's view and writes nothing. -/
theorem yields_lift {p : Prog I.readOnly ε α} {b : α} :
    E.Yields db p.lift ws b ws' ↔ E.read (E.view db ws) p = .ok b ∧ ws' = ws := by
  induction p with
  | pure a => simp [read, eq_comm]
  | throw e => simp [read]
  | query q k ih =>
    simp only [Prog.lift_query, Yields, ih, read]
    cases E.answer q (E.view db ws) with
    | ok row => simp
    | error e => simp
  | stmt s k => exact nomatch s

/-- A run that returns is a `Yields` with the counter's own values. -/
theorem yields_of_run {p : Prog I ε α} {ws : List E.Write} {n : Nat} {b : α}
    (h : (E.run db p ws n).1 = .ok (b, ws')) : E.Yields db p ws b ws' := by
  induction p generalizing ws n with
  | pure a => cases h; exact ⟨rfl, rfl⟩
  | throw e => cases h
  | query q k ih =>
    simp only [run] at h
    split at h
    · rename_i row hrow; exact ⟨row, hrow, ih _ h⟩
    · cases h
  | stmt s k ih =>
    simp only [run] at h
    split at h
    · rename_i ans new hexec; exact ⟨n, ans, new, hexec, ih _ h⟩
    · cases h

/-- `call` on committed tables `db` may commit the writes `ws` and reply `r`. -/
def Commits (E : Engine I ε) (db : E.Tables) (call : Call I ε ρ) (r : ρ) (ws : List E.Write) : Prop :=
  ∃ body recover, E.read db call = .ok (.transaction body recover) ∧
    E.Yields db body [] r ws ∧ E.settle (E.view db ws) ws = .ok ()

/-- Commits of calls from `P`, one after another, lead from the tables `db` to others. -/
inductive Evolves (E : Engine I ε) (P : Call I ε ρ → Prop) (db : E.Tables) : E.Tables → Prop where
  | refl : Evolves E P db db
  | commit {db'} (call : Call I ε ρ) (r : ρ) (ws : List E.Write) : Evolves E P db db' → P call →
      E.Commits db' call r ws → Evolves E P db (E.view db' ws)

/-- What every commit keeps holds wherever commits lead. -/
theorem Evolves.invariant {P : Call I ε ρ → Prop} {motive : E.Tables → Prop} {db db' : E.Tables}
    (h : E.Evolves P db db') (h0 : motive db)
    (step : ∀ {db call r ws}, P call → motive db → E.Commits db call r ws → motive (E.view db ws)) : motive db' := by
  induction h with
  | refl => exact h0
  | commit call r ws _ hcall hc ih => exact step hcall ih hc

theorem run_seq_le (p : Prog I ε α) (ws : List E.Write) (n : Nat) : n ≤ (E.run db p ws n).2 := by
  induction p generalizing ws n with
  | pure a => exact Nat.le_refl _
  | throw e => exact Nat.le_refl _
  | query q k ih =>
    simp only [run]
    split
    · exact ih _ _ _
    · exact Nat.le_refl _
  | stmt s k ih =>
    simp only [run]
    split
    · exact Nat.le_trans (Nat.le_add_right _ _) (ih _ _ _)
    · exact Nat.le_add_right _ _

/-- A call alone either keeps the tables or commits what its transaction ran. -/
theorem serve_run (call : Call I ε ρ) (w : E.World) :
    w.seq ≤ (E.serve call w).2.seq ∧ ((E.serve call w).2.db = w.db ∨
      ∃ body recover r ws, E.read w.db call = .ok (.transaction body recover) ∧
        E.run w.db body [] w.seq = (.ok (r, ws), (E.serve call w).2.seq) ∧
        E.settle (E.view w.db ws) ws = .ok () ∧ (E.serve call w).1 = .ok r ∧
        (E.serve call w).2.db = E.view w.db ws) := by
  unfold serve
  split
  · exact ⟨Nat.le_refl _, .inl rfl⟩
  · exact ⟨Nat.le_refl _, .inl rfl⟩
  · rename_i body recover hread
    unfold transact
    cases hrun : E.run w.db body [] w.seq with
    | mk out n =>
      have hle : w.seq ≤ n := by
        have hle : w.seq ≤ (E.run w.db body [] w.seq).2 := E.run_seq_le body [] w.seq
        rwa [hrun] at hle
      cases out with
      | error e => exact ⟨hle, .inl rfl⟩
      | ok rws =>
        obtain ⟨r, ws⟩ := rws
        cases hsettle : E.settle (E.view w.db ws) ws with
        | error e => simp only [hsettle]; exact ⟨hle, .inl trivial⟩
        | ok u => simp only [hsettle]; exact ⟨hle, .inr ⟨body, recover, r, ws, hread, hrun, hsettle, rfl, rfl⟩⟩

/-- A call alone either keeps the tables or commits. -/
theorem serve_cases (call : Call I ε ρ) (w : E.World) :
    (E.serve call w).2.db = w.db ∨
      ∃ r ws, (E.serve call w).1 = .ok r ∧ E.Commits w.db call r ws ∧ (E.serve call w).2.db = E.view w.db ws := by
  rcases (E.serve_run call w).2 with h | ⟨body, recover, r, ws, hread, hrun, hsettle, hres, hdb⟩
  · exact .inl h
  · exact .inr ⟨r, ws, hres, ⟨body, recover, hread, yields_of_run (n := w.seq) (by rw [hrun]), hsettle⟩, hdb⟩

end Engine

end Sessions
