import Mathlib.Data.List.Basic
import Mathlib.Logic.Relation
import MiniLedger.Sessions.Interleaving

/-!
# Rules clients keep, held resources and the wait-for graph

`Rules` say which queries and statements a transaction may send, given what it holds;
`Follows` checks a program against them once, and every session of a run then keeps them
(`Reaches.keeps`). Two facts need no more: no two sessions hold one resource, and if every
transaction takes its resources in ascending order the wait-for graph has no cycle.
-/

namespace Sessions

variable {I : Interface} {ε α β ρ : Type}

namespace Prog

/-- Every value the program can return satisfies `P`. -/
def Returns (P : α → Prop) : Prog I ε α → Prop
  | .pure a => P a
  | .throw _ => True
  | .query _ k => ∀ row, (k row).Returns P
  | .stmt _ k => ∀ ans, (k ans).Returns P

theorem Returns.mono {P Q : α → Prop} {p : Prog I ε α} (h : p.Returns P) (hpq : ∀ a, P a → Q a) : p.Returns Q := by
  induction p with
  | pure a => exact hpq a h
  | throw e => trivial
  | query q k ih => exact fun row => ih row (h row)
  | stmt s k ih => exact fun ans => ih ans (h ans)

theorem returns_bind {P : β → Prop} {p : Prog I ε α} {f : α → Prog I ε β}
    (h : p.Returns fun a => (f a).Returns P) : (p.bind f).Returns P := by
  induction p with
  | pure a => exact h
  | throw e => trivial
  | query q k ih => exact fun row => ih row (h row)
  | stmt s k ih => exact fun ans => ih ans (h ans)

theorem returns_of_read {E : Engine I ε} {db : E.Tables} {P : α → Prop} {p : Prog I.readOnly ε α} {a : α}
    (h : p.Returns P) (hr : E.read db p = .ok a) : P a := by
  induction p with
  | pure b => cases hr; exact h
  | throw e => cases hr
  | query q k ih =>
    rw [Engine.read] at hr
    split at hr
    · rename_i row _; exact ih row (h row) hr
    · cases hr
  | stmt s k => exact Empty.elim s

end Prog

/-- What a transaction may ask, and what it may send given the resources it holds. -/
structure Rules (E : Engine I ε) where
  mayAsk : I.Query → Prop
  maySend : List E.Resource → I.Stmt → Prop

namespace Rules

variable {E : Engine I ε} (R : Rules E)

/-- The program keeps the rules, starting from the resources `held`, and returns with
`post`. -/
def Follows (post : List E.Resource → α → Prop) : List E.Resource → Prog I ε α → Prop
  | held, .pure a => post held a
  | _, .throw _ => True
  | held, .query q k => R.mayAsk q ∧ ∀ row, Follows post held (k row)
  | held, .stmt s k => R.maySend held s ∧ ∀ ans, Follows post (held ++ E.locks s ans) (k ans)

variable {R}

theorem Follows.mono {post post' : List E.Resource → α → Prop} {held : List E.Resource} {p : Prog I ε α}
    (h : R.Follows post held p) (hpost : ∀ held a, post held a → post' held a) : R.Follows post' held p := by
  induction p generalizing held with
  | pure a => exact hpost held a h
  | throw e => trivial
  | query q k ih => exact ⟨h.1, fun row => ih row (h.2 row)⟩
  | stmt s k ih => exact ⟨h.1, fun ans => ih ans (h.2 ans)⟩

/-- A program that keeps the rules keeps any that allow as much. -/
theorem Follows.weaken {R' : Rules E} {post : List E.Resource → α → Prop} {held : List E.Resource} {p : Prog I ε α}
    (h : R.Follows post held p) (hask : ∀ q, R.mayAsk q → R'.mayAsk q)
    (hsend : ∀ held s, R.maySend held s → R'.maySend held s) : R'.Follows post held p := by
  induction p generalizing held with
  | pure a => exact h
  | throw e => trivial
  | query q k ih => exact ⟨hask q h.1, fun row => ih row (h.2 row)⟩
  | stmt s k ih => exact ⟨hsend held s h.1, fun ans => ih ans (h.2 ans)⟩

theorem follows_bind {post : List E.Resource → β → Prop} {held : List E.Resource} {p : Prog I ε α}
    {f : α → Prog I ε β} (h : R.Follows (fun held a => R.Follows post held (f a)) held p) :
    R.Follows post held (p.bind f) := by
  induction p generalizing held with
  | pure a => exact h
  | throw e => trivial
  | query q k ih => exact ⟨h.1, fun row => ih row (h.2 row)⟩
  | stmt s k ih => exact ⟨h.1, fun ans => ih ans (h.2 ans)⟩

end Rules

variable {E : Engine I ε} {ι : Type} [DecidableEq ι]

/-- No two sessions hold one resource. -/
def Config.Exclusive (c : Config E ι ρ) : Prop :=
  ∀ i j, i ≠ j → (c.phase i).held.Disjoint (c.phase j).held

/-- What the next statement of a transaction needs. -/
def Phase.wants : Phase E ρ → List E.Resource
  | .inTx _ _ _ (.stmt s _) _ _ => E.needs s
  | _ => []

/-- Session `i` waits for a resource session `j` holds. -/
def Config.Waits (c : Config E ι ρ) (i j : ι) : Prop := j ≠ i ∧ ∃ r ∈ (c.phase i).wants, r ∈ (c.phase j).held

instance [DecidableEq E.Resource] (c : Config E ι ρ) (i j : ι) : Decidable (c.Waits i j) :=
  inferInstanceAs (Decidable (_ ∧ _))

/-- A call whose transaction keeps the rules. -/
def Rules.Admits (R : Rules E) (call : Call I ε ρ) : Prop :=
  call.Returns fun plan => ∀ body recover, plan = .transaction body recover → R.Follows (fun _ _ => True) [] body

/-- What is left of a session keeps the rules. -/
def Phase.Keeps (R : Rules E) : Phase E ρ → Prop
  | .reading p => R.Admits p
  | .inTx _ _ _ p _ held => R.Follows (fun _ _ => True) held p
  | .done _ => True

section

variable {c c' : Config E ι ρ} {calls : ι → Call I ε ρ} {R : Rules E}

theorem Config.Exclusive.goto {i : ι} {ph : Phase E ρ} (h : c.Exclusive)
    (hph : ∀ j, j ≠ i → ph.held.Disjoint (c.phase j).held) :
    ∀ j k, j ≠ k → (Function.update c.phase i ph j).held.Disjoint (Function.update c.phase i ph k).held := by
  intro j k hjk
  by_cases hj : j = i
  · subst hj
    rw [Function.update_self, Function.update_of_ne (Ne.symm hjk)]
    exact hph k (Ne.symm hjk)
  · by_cases hk : k = i
    · subst hk
      rw [Function.update_self, Function.update_of_ne hj]
      exact (hph j hj).symm
    · rw [Function.update_of_ne hj, Function.update_of_ne hk]
      exact h j k hjk

omit [DecidableEq ι] in
/-- A statement that did not wait locks nothing another session holds. -/
theorem Config.locks_disjoint {i j : ι} {s : I.Stmt} {ans : I.Ans s} (hfree : ¬ c.Blocked i s) (hj : j ≠ i) :
    (E.locks s ans).Disjoint (c.phase j).held :=
  fun r hr hr' => hfree ⟨j, hj, r, E.locks_needed s ans hr, hr'⟩

theorem Config.Exclusive.step (h : c.Exclusive) {i : ι} (hstep : Step c i c') : c'.Exclusive := by
  cases hstep with
  | reply | refused | read | begin | rollback | commit => exact h.goto fun j _ => by simp [List.Disjoint]
  | query _ _ _ _ _ _ _ _ hp =>
    refine h.goto fun j hj => ?_
    have := h i j (Ne.symm hj)
    rw [hp] at this
    exact this
  | stmt _ _ _ _ _ _ _ _ _ hp hfree =>
    refine h.goto fun j hj => ?_
    have hold := h i j (Ne.symm hj)
    rw [hp] at hold
    rw [Phase.held_inTx, List.disjoint_append_left]
    exact ⟨hold, Config.locks_disjoint hfree hj⟩

variable [Fintype ι] [DecidableEq E.Resource]

/-- Every session of a run keeps the rules its call was checked against. -/
theorem Reaches.keeps {w : E.World} (hcalls : ∀ i, R.Admits (calls i)) (h : Reaches (Config.start w calls) c) :
    ∀ i, (c.phase i).Keeps R := by
  refine h.invariant (P := fun c => ∀ i, (c.phase i).Keeps R) hcalls ?_
  intro d e i hd hstep
  have hi := hd i
  have keep : ∀ ph : Phase E ρ, ph.Keeps R → ∀ j, (Function.update d.phase i ph j).Keeps R := by
    intro ph hph j
    by_cases hj : j = i
    · subst hj; rwa [Function.update_self]
    · rw [Function.update_of_ne hj]; exact hd j
  cases hstep with
  | reply | refused | rollback | commit => exact keep _ trivial
  | read q k row hp => rw [hp] at hi; exact keep _ (hi row)
  | begin body recover hp => rw [hp] at hi; exact keep _ (hi body recover rfl)
  | query _ _ _ _ _ _ _ row hp => rw [hp] at hi; exact keep _ (hi.2 row)
  | stmt _ _ _ _ _ _ _ ans _ hp => rw [hp] at hi; exact keep _ (hi.2 ans)

theorem Reaches.exclusive {w : E.World} (h : Reaches (Config.start w calls) c) : c.Exclusive :=
  h.invariant (fun _ _ _ => by simp [Config.start, List.Disjoint]) fun _ _ _ hex hstep => hex.step hstep

end

/-! ## Ascending acquisition -/

/-- Each resource a statement needs is held already or ranks above everything held. -/
def Rules.ascending {γ : Type} [LT γ] (E : Engine I ε) (rank : E.Resource → γ) : Rules E where
  mayAsk _ := True
  maySend held s := ∀ r ∈ E.needs s, r ∈ held ∨ ∀ h ∈ held, rank h < rank r

omit [DecidableEq ι] in
/-- **No deadlock.** If every session takes its resources in ascending order, no chain of
waits leads back to where it started. -/
theorem Config.acyclic_waits {γ : Type} [Preorder γ] {rank : E.Resource → γ} {c : Config E ι ρ}
    (hex : c.Exclusive) (hk : ∀ i, (c.phase i).Keeps (Rules.ascending E rank)) (i : ι) :
    ¬ Relation.TransGen c.Waits i i := by
  -- a wait leads from everything a session holds to something higher that the other holds
  have up : ∀ i j, c.Waits i j → ∃ r ∈ (c.phase j).held, ∀ h ∈ (c.phase i).held, rank h < rank r := by
    rintro i j ⟨hj, r, hr, hrj⟩
    have hki := hk i
    have hdis := hex i j (Ne.symm hj)
    unfold Phase.wants at hr
    split at hr
    · rename_i body recover told s k ws held hp
      rw [hp] at hki hdis ⊢
      exact ⟨r, hrj, (hki.1 r hr).resolve_left fun hri => hdis hri hrj⟩
    · cases hr
  have chain : ∀ j, Relation.TransGen c.Waits i j →
      ∃ r ∈ (c.phase j).held, ∀ h ∈ (c.phase i).held, rank h < rank r := by
    intro j h
    induction h with
    | single h => exact up _ _ h
    | tail _ h ih =>
      obtain ⟨r, hr, hlt⟩ := ih
      obtain ⟨r', hr', hlt'⟩ := up _ _ h
      exact ⟨r', hr', fun h hh => (hlt h hh).trans (hlt' r hr)⟩
  intro h
  obtain ⟨r, hr, hlt⟩ := chain i h
  exact lt_irrefl _ (hlt r hr)

end Sessions
