import Mathlib.Data.List.Forall2
import MiniLedger.Sessions.Rules

/-!
# Runs that draw other sequence values

Two states of the tables may differ in values a client cannot tell apart, those drawn from
the sequence for one. A `Likeness` is such a relation, kept by every statement whatever it
draws; what a program may yield on one state it then returns, run alone, on any state like
it (`Likeness.run`).
-/

namespace Sessions

variable {I : Interface} {ε α ρ : Type}

structure Likeness (E : Engine I ε) where
  /-- The queries that cannot tell. -/
  blind : I.Query → Prop
  Like : E.Tables → E.Tables → Prop
  LikeWrite : E.Write → E.Write → Prop
  apply_like : ∀ {t t' w w'}, Like t t' → LikeWrite w w' → Like (E.apply t w) (E.apply t' w')
  answer_like : ∀ {q t t'}, blind q → Like t t' → E.answer q t = E.answer q t'
  exec_like : ∀ {s n t t' ans new} (n'), Like t t' → E.exec s n t = .ok (ans, new) →
    ∃ new', E.exec s n' t' = .ok (ans, new') ∧ List.Forall₂ LikeWrite new new'
  settle_like : ∀ {t t' ws ws'}, Like t t' → List.Forall₂ LikeWrite ws ws' → E.settle t ws = .ok () →
    E.settle t' ws' = .ok ()

namespace Likeness

variable {E : Engine I ε} (L : Likeness E) {db db' : E.Tables}

theorem view {ws ws' : List E.Write} (h : L.Like db db') (hws : List.Forall₂ L.LikeWrite ws ws') :
    L.Like (E.view db ws) (E.view db' ws') := by
  induction hws generalizing db db' with
  | nil => exact h
  | cons hw _ ih => exact ih (L.apply_like h hw)

/-- What a program may yield, it returns on tables alike. -/
theorem run {R : Rules E} {post : List E.Resource → α → Prop} {held : List E.Resource} {p : Prog I ε α}
    {ws ws' out : List E.Write} {a : α} (h : L.Like db db') (hws : List.Forall₂ L.LikeWrite ws ws')
    (hf : R.Follows post held p) (hblind : ∀ q, R.mayAsk q → L.blind q) (hy : E.Yields db p ws a out) (n : Nat) :
    ∃ out' n', E.run db' p ws' n = (.ok (a, out'), n') ∧ List.Forall₂ L.LikeWrite out out' := by
  induction p generalizing held ws ws' n with
  | pure b => obtain ⟨rfl, rfl⟩ := hy; exact ⟨ws', n, rfl, hws⟩
  | throw e => exact hy.elim
  | query q k ih =>
    obtain ⟨row, hrow, hy⟩ := hy
    obtain ⟨out', n', hrun, hout⟩ := ih row hws (hf.2 row) hy n
    rw [L.answer_like (hblind q hf.1) (L.view h hws)] at hrow
    exact ⟨out', n', by rw [Engine.run, hrow]; exact hrun, hout⟩
  | stmt s k ih =>
    obtain ⟨m, ans, new, hx, hy⟩ := hy
    obtain ⟨new', hx', hnew⟩ := L.exec_like n (L.view h hws) hx
    obtain ⟨out', n', hrun, hout⟩ := ih ans (List.rel_append hws hnew) (hf.2 ans) hy (n + E.draws s)
    exact ⟨out', n', by rw [Engine.run, hx']; exact hrun, hout⟩

/-- What a call may commit, it commits when it is served alone on tables alike. -/
theorem serve {R : Rules E} {call : Call I ε ρ} {w : E.World} {r : ρ} {ws : List E.Write} (h : L.Like db w.db)
    (hadmits : R.Admits call) (hblind : ∀ q, R.mayAsk q → L.blind q) (hread : E.read db call = E.read w.db call)
    (hc : E.Commits db call r ws) :
    ∃ ws', (E.serve call w).1 = .ok r ∧ (E.serve call w).2.db = E.view w.db ws' ∧ List.Forall₂ L.LikeWrite ws ws' := by
  obtain ⟨body, recover, hplan, hy, hs⟩ := hc
  have hf := Prog.returns_of_read hadmits hplan body recover rfl
  obtain ⟨ws', n, hrun, hws⟩ := L.run h .nil hf hblind hy w.seq
  have hs' := L.settle_like (L.view h hws) hws hs
  have hserve : E.serve call w = (.ok r, ⟨E.view w.db ws', n⟩) := by
    simp only [Engine.serve, ← hread, hplan, Engine.transact, hrun, hs']
  exact ⟨ws', by rw [hserve], by rw [hserve], hws⟩

end Likeness

end Sessions
