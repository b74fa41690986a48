import Mathlib.Data.Fintype.Basic
import Mathlib.Logic.Function.Basic
import MiniLedger.Sessions.Engine

/-!
# Many clients at READ COMMITTED

Every statement of an open transaction sees the tables committed when it runs, with the
transaction's own writes on top. A statement waits while another transaction holds
something it needs; what it locks stays held until its transaction ends. Writes reach the
committed tables at commit only. `advance` moves one session by one statement, `abort`
lets the store end a transaction on its own; a run is any sequence of the two.
-/

namespace Sessions

variable {I : Interface} {ε ρ : Type}

/-- What a statement inside a transaction was told. -/
inductive Obs (I : Interface) where
  | row (q : I.Query) (r : I.Row q)
  | ans (s : I.Stmt) (a : I.Ans s)

/-- A client call in progress. -/
inductive Phase (E : Engine I ε) (ρ : Type) where
  /-- reading outside a transaction -/
  | reading (p : Call I ε ρ)
  /-- in the transaction of `body`: what it was told, what is left of it, its writes and
  the resources it holds -/
  | inTx (body : Prog I ε ρ) (recover : ε → Except ε ρ) (told : List (Obs I)) (p : Prog I ε ρ)
      (ws : List E.Write) (held : List E.Resource)
  | done (r : Except ε ρ)

/-- The resources a session holds. -/
def Phase.held {E : Engine I ε} : Phase E ρ → List E.Resource
  | .inTx _ _ _ _ _ held => held
  | _ => []

@[simp] theorem Phase.held_reading {E : Engine I ε} (p : Call I ε ρ) : (Phase.reading p : Phase E ρ).held = [] := rfl
@[simp] theorem Phase.held_inTx {E : Engine I ε} (body : Prog I ε ρ) (recover told p ws) (held : List E.Resource) :
    (Phase.inTx body recover told p ws held).held = held := rfl
@[simp] theorem Phase.held_done {E : Engine I ε} (r : Except ε ρ) : (Phase.done r : Phase E ρ).held = [] := rfl

/-- What a session's open transaction has written. -/
def Phase.writes {E : Engine I ε} : Phase E ρ → List E.Write
  | .inTx _ _ _ _ ws _ => ws
  | _ => []

/-- What a finished call returned. -/
def Phase.result {E : Engine I ε} : Phase E ρ → Option (Except ε ρ)
  | .done r => some r
  | _ => none

theorem Phase.result_eq {E : Engine I ε} {ph : Phase E ρ} {r : Except ε ρ} : ph.result = some r ↔ ph = .done r := by
  cases ph <;> simp [Phase.result]

/-- A committed transaction: whose, its reply and its writes. -/
structure Commit (E : Engine I ε) (ι ρ : Type) where
  session : ι
  reply : ρ
  writes : List E.Write

/-- The committed tables, the sequence counter, every session, and the commits so far in
commit order. -/
structure Config (E : Engine I ε) (ι ρ : Type) where
  db : E.Tables
  seq : Nat
  phase : ι → Phase E ρ
  log : List (Commit E ι ρ)

namespace Config

variable {E : Engine I ε} {ι : Type} [DecidableEq ι]

/-- No call has sent anything yet. -/
def start (w : E.World) (calls : ι → Call I ε ρ) : Config E ι ρ :=
  ⟨w.db, w.seq, fun i => .reading (calls i), []⟩

def goto (c : Config E ι ρ) (i : ι) (ph : Phase E ρ) : Config E ι ρ :=
  { c with phase := Function.update c.phase i ph }

@[simp] theorem goto_db (c : Config E ι ρ) (i ph) : (c.goto i ph).db = c.db := rfl
@[simp] theorem goto_seq (c : Config E ι ρ) (i ph) : (c.goto i ph).seq = c.seq := rfl
@[simp] theorem goto_log (c : Config E ι ρ) (i ph) : (c.goto i ph).log = c.log := rfl
@[simp] theorem goto_phase (c : Config E ι ρ) (i ph) : (c.goto i ph).phase = Function.update c.phase i ph := rfl

/-- The session whose transaction returned `r` commits its writes. -/
def commit (c : Config E ι ρ) (i : ι) (r : ρ) (ws : List E.Write) : Config E ι ρ where
  db := E.view c.db ws
  seq := c.seq
  phase := Function.update c.phase i (.done (.ok r))
  log := c.log ++ [⟨i, r, ws⟩]

/-- Statement `s` of session `i` has to wait. -/
def Blocked (c : Config E ι ρ) (i : ι) (s : I.Stmt) : Prop :=
  ∃ j, j ≠ i ∧ ∃ r ∈ E.needs s, r ∈ (c.phase j).held

instance [Fintype ι] [DecidableEq E.Resource] (c : Config E ι ρ) (i : ι) (s : I.Stmt) : Decidable (c.Blocked i s) :=
  inferInstanceAs (Decidable (∃ j, j ≠ i ∧ ∃ r ∈ E.needs s, r ∈ (c.phase j).held))

/-- The next statement of session `i`, or nothing if it waits or is done. -/
def advance [Fintype ι] [DecidableEq E.Resource] (c : Config E ι ρ) (i : ι) : Option (Config E ι ρ) :=
  match c.phase i with
  | .reading (.pure (.reply r)) => some (c.goto i (.done (.ok r)))
  | .reading (.pure (.transaction body recover)) => some (c.goto i (.inTx body recover [] body [] []))
  | .reading (.throw e) => some (c.goto i (.done (.error e)))
  | .reading (.query q k) =>
    match E.answer q c.db with
    | .ok row => some (c.goto i (.reading (k row)))
    | .error e => some (c.goto i (.done (.error e)))
  | .reading (.stmt s _) => nomatch s
  | .inTx _ recover _ (.pure r) ws _ =>
    match E.settle (E.view c.db ws) ws with
    | .ok () => some (c.commit i r ws)
    | .error e => some (c.goto i (.done (recover e)))
  | .inTx _ recover _ (.throw e) _ _ => some (c.goto i (.done (recover e)))
  | .inTx body recover told (.query q k) ws held =>
    match E.answer q (E.view c.db ws) with
    | .ok row => some (c.goto i (.inTx body recover (told ++ [.row q row]) (k row) ws held))
    | .error e => some (c.goto i (.done (recover e)))
  | .inTx body recover told (.stmt s k) ws held =>
    if c.Blocked i s then none else
    match E.exec s c.seq (E.view c.db ws) with
    | .ok (ans, new) =>
      some { c.goto i (.inTx body recover (told ++ [.ans s ans]) (k ans) (ws ++ new) (held ++ E.locks s ans)) with
        seq := c.seq + E.draws s }
    | .error e => some { c.goto i (.done (recover e)) with seq := c.seq + E.draws s }
  | .done _ => none

/-- The store ends the transaction of session `i`. -/
def abort (c : Config E ι ρ) (i : ι) (x : E.Kill) : Option (Config E ι ρ) :=
  match c.phase i with
  | .inTx _ recover _ _ _ _ => some (c.goto i (.done (recover (E.killed x))))
  | _ => none

end Config

/-- One event of a run. -/
inductive Act (E : Engine I ε) (ι : Type) where
  | advance (i : ι)
  | abort (i : ι) (x : E.Kill)

def Act.session {E : Engine I ε} {ι : Type} : Act E ι → ι
  | .advance i => i
  | .abort i _ => i

section

variable {E : Engine I ε} {ι : Type} [DecidableEq ι] [Fintype ι] [DecidableEq E.Resource]

def Config.act (c : Config E ι ρ) : Act E ι → Option (Config E ι ρ)
  | .advance i => c.advance i
  | .abort i x => c.abort i x

/-- What one event of session `i` does to the configuration, one case per kind of event. -/
inductive Step (c : Config E ι ρ) (i : ι) : Config E ι ρ → Prop where
  /-- the call ends without a transaction -/
  | reply (p r) (hp : c.phase i = .reading p) (hr : ∀ db, E.read db p = r.map .reply) :
      Step c i (c.goto i (.done r))
  | refused (q k e) (hp : c.phase i = .reading (.query q k)) (ha : E.answer q c.db = .error e) :
      Step c i (c.goto i (.done (.error e)))
  | read (q k row) (hp : c.phase i = .reading (.query q k)) (ha : E.answer q c.db = .ok row) :
      Step c i (c.goto i (.reading (k row)))
  | begin (body recover) (hp : c.phase i = .reading (.pure (.transaction body recover))) :
      Step c i (c.goto i (.inTx body recover [] body [] []))
  | query (body recover told q k ws held row) (hp : c.phase i = .inTx body recover told (.query q k) ws held)
      (ha : E.answer q (E.view c.db ws) = .ok row) :
      Step c i (c.goto i (.inTx body recover (told ++ [.row q row]) (k row) ws held))
  | stmt (body recover told s k ws held ans new) (hp : c.phase i = .inTx body recover told (.stmt s k) ws held)
      (hfree : ¬ c.Blocked i s) (hx : E.exec s c.seq (E.view c.db ws) = .ok (ans, new)) :
      Step c i { c.goto i (.inTx body recover (told ++ [.ans s ans]) (k ans) (ws ++ new)
        (held ++ E.locks s ans)) with seq := c.seq + E.draws s }
  /-- the transaction ends in the exception `e` and rolls back -/
  | rollback (body recover told p ws held e n) (hp : c.phase i = .inTx body recover told p ws held)
      (hn : c.seq ≤ n) :
      Step c i { c.goto i (.done (recover e)) with seq := n }
  | commit (body recover told r ws held) (hp : c.phase i = .inTx body recover told (.pure r) ws held)
      (hs : E.settle (E.view c.db ws) ws = .ok ()) :
      Step c i (c.commit i r ws)

/-- Every event is one of the steps. -/
theorem step_of_act {c c' : Config E ι ρ} {a : Act E ι} (h : c.act a = some c') : Step c a.session c' := by
  cases a with
  | abort i x =>
    simp only [Config.act, Config.abort] at h
    split at h
    · rename_i hp
      cases h
      exact .rollback _ _ _ _ _ _ _ c.seq hp le_rfl
    · cases h
  | advance i =>
    simp only [Config.act, Config.advance] at h
    split at h
    · rename_i r hp; cases h; exact .reply _ (.ok r) hp fun _ => rfl
    · rename_i body recover hp; cases h; exact .begin _ _ hp
    · rename_i e hp; cases h; exact .reply _ (.error e) hp fun _ => rfl
    · rename_i q k hp
      split at h
      · rename_i row ha; cases h; exact .read q k row hp ha
      · rename_i e ha; cases h; exact .refused q k e hp ha
    · rename_i s _ _; exact nomatch s
    · rename_i body recover told r ws held hp
      split at h
      · rename_i hs; cases h; exact .commit _ _ _ _ _ _ hp hs
      · rename_i e _; cases h; exact .rollback _ _ _ _ _ _ e c.seq hp le_rfl
    · rename_i body recover told e ws held hp
      cases h; exact .rollback _ _ _ _ _ _ e c.seq hp le_rfl
    · rename_i body recover told q k ws held hp
      split at h
      · rename_i row ha; cases h; exact .query _ _ _ _ _ _ _ _ hp ha
      · rename_i e _; cases h; exact .rollback _ _ _ _ _ _ e c.seq hp le_rfl
    · rename_i body recover told s k ws held hp
      split at h
      · cases h
      · rename_i hfree
        split at h
        · rename_i ans new hx; cases h; exact .stmt _ _ _ _ _ _ _ _ _ hp hfree hx
        · rename_i e _; cases h; exact .rollback _ _ _ _ _ _ e _ hp (Nat.le_add_right _ _)
    · cases h

omit [Fintype ι] [DecidableEq E.Resource] in
/-- An event moves one session. -/
theorem Step.others {c d : Config E ι ρ} {i j : ι} (h : Step c i d) (hj : j ≠ i) : d.phase j = c.phase j := by
  cases h <;> exact Function.update_of_ne hj _ _

section

variable {c : Config E ι ρ} {i : ι} {body p : Prog I ε ρ} {recover : ε → Except ε ρ} {told : List (Obs I)}
  {ws : List E.Write} {held : List E.Resource}

theorem advance_read {q : I.Query} {k : I.Row q → Call I ε ρ} {row : I.Row q} (hp : c.phase i = .reading (.query q k))
    (ha : E.answer q c.db = .ok row) : c.advance i = some (c.goto i (.reading (k row))) := by
  simp only [Config.advance, hp, ha]

theorem advance_begin (hp : c.phase i = .reading (.pure (.transaction body recover))) :
    c.advance i = some (c.goto i (.inTx body recover [] body [] [])) := by
  simp only [Config.advance, hp]

theorem advance_query {q : I.Query} {k : I.Row q → Prog I ε ρ} {row : I.Row q}
    (hp : c.phase i = .inTx body recover told (.query q k) ws held) (ha : E.answer q (E.view c.db ws) = .ok row) :
    c.advance i = some (c.goto i (.inTx body recover (told ++ [.row q row]) (k row) ws held)) := by
  simp only [Config.advance, hp, ha]

theorem advance_throw {e : ε} (hp : c.phase i = .inTx body recover told (.throw e) ws held) :
    c.advance i = some (c.goto i (.done (recover e))) := by
  simp only [Config.advance, hp]

theorem advance_done {r : Except ε ρ} (hp : c.phase i = .done r) : c.advance i = none := by
  simp only [Config.advance, hp]

end

/-- A run, with its events. -/
inductive Run (c : Config E ι ρ) : List (Act E ι) → Config E ι ρ → Prop where
  | refl : Run c [] c
  | snoc {as a d e} : Run c as d → d.act a = some e → Run c (as ++ [a]) e

/-- Play a list of events. -/
def Config.play (c : Config E ι ρ) : List (Act E ι) → Option (Config E ι ρ)
  | [] => some c
  | a :: as => (c.act a).bind fun d => d.play as

theorem Config.play_append {c d : Config E ι ρ} {as : List (Act E ι)} (h : c.play as = some d) (bs : List (Act E ι)) :
    c.play (as ++ bs) = d.play bs := by
  induction as generalizing c with
  | nil => cases h; rfl
  | cons a as ih =>
    obtain ⟨c', hact, hplay⟩ := Option.bind_eq_some_iff.1 h
    rw [List.cons_append, Config.play, hact, Option.bind_some, ih hplay]

/-- `P` holds of every event of the run that plays `as`, and of the configuration it happens in. -/
def Config.Along (P : Config E ι ρ → Act E ι → Prop) (c : Config E ι ρ) : List (Act E ι) → Prop
  | [] => True
  | a :: as => P c a ∧ ∀ d ∈ c.act a, d.Along P as

instance Config.Along.decidable {P : Config E ι ρ → Act E ι → Prop} [∀ c a, Decidable (P c a)] :
    ∀ (c : Config E ι ρ) as, Decidable (c.Along P as)
  | _, [] => .isTrue trivial
  | c, a :: as =>
    have : ∀ d : Config E ι ρ, Decidable (d.Along P as) := fun d => Config.Along.decidable d as
    inferInstanceAs (Decidable (P c a ∧ ∀ d ∈ c.act a, d.Along P as))

/-- What the events that satisfy `P` keep, and what then holds of them. -/
theorem Config.Along.keeps {P Q : Config E ι ρ → Act E ι → Prop} {motive : Config E ι ρ → Prop} {c : Config E ι ρ}
    {as : List (Act E ι)} (h : c.Along P as) (h0 : motive c)
    (step : ∀ {c a d}, motive c → P c a → c.act a = some d → motive d) (holds : ∀ {c a}, motive c → P c a → Q c a) :
    c.Along Q as := by
  induction as generalizing c with
  | nil => trivial
  | cons a as ih => exact ⟨holds h0 h.1, fun d hact => ih (h.2 d hact) (step h0 h.1 hact)⟩

theorem Config.Along.later {P : Config E ι ρ → Act E ι → Prop} {c d : Config E ι ρ} {as bs : List (Act E ι)}
    (h : c.Along P (as ++ bs)) (hplay : c.play as = some d) : d.Along P bs := by
  induction as generalizing c with
  | nil => cases hplay; exact h
  | cons a as ih =>
    obtain ⟨c', hact, hplay⟩ := Option.bind_eq_some_iff.1 hplay
    exact ih (h.2 c' hact) hplay

/-- Some run leads from `c` to `d`. -/
def Reaches (c d : Config E ι ρ) : Prop := ∃ as, Run c as d

theorem Reaches.refl (c : Config E ι ρ) : Reaches c c := ⟨[], .refl⟩

theorem Reaches.snoc {c d e : Config E ι ρ} {a : Act E ι} (h : Reaches c d) (hact : d.act a = some e) : Reaches c e := by
  obtain ⟨as, run⟩ := h
  exact ⟨as ++ [a], run.snoc hact⟩

theorem Reaches.trans {c d e : Config E ι ρ} (h : Reaches c d) (h' : Reaches d e) : Reaches c e := by
  obtain ⟨bs, run⟩ := h'
  induction run with
  | refl => exact h
  | snoc _ hact ih => exact ih.snoc hact

theorem Reaches.of_play {c d e : Config E ι ρ} {as : List (Act E ι)} (h : Reaches c d) (hp : d.play as = some e) :
    Reaches c e := by
  induction as generalizing d with
  | nil => cases hp; exact h
  | cons a as ih =>
    obtain ⟨d', hact, hplay⟩ := Option.bind_eq_some_iff.1 hp
    exact ih (h.snoc hact) hplay

/-- What the steps preserve holds along every run. -/
theorem Reaches.invariant {P : Config E ι ρ → Prop} {c d : Config E ι ρ} (h : Reaches c d) (h0 : P c)
    (step : ∀ d e i, P d → Step d i e → P e) : P d := by
  obtain ⟨as, run⟩ := h
  induction run with
  | refl => exact h0
  | snoc _ hact ih => exact step _ _ _ ih (step_of_act hact)

end

end Sessions
