import Mathlib.Data.DFinsupp.WellFounded
import Mathlib.SetTheory.Cardinal.Order
import MiniLedger.Sessions.Rules

/-!
# Every run ends

An event takes one statement off one session and adds none, so no run goes on for ever
(`Config.no_endless`). A run nothing can continue has answered every call, or some session
waits, through others, for itself (`Config.stuck`).
-/

namespace Sessions

variable {I : Interface} {ε ρ : Type} {E : Engine I ε}

/-- What the phase of a session can become by one event of its own. -/
inductive Phase.Next : Phase E ρ → Phase E ρ → Prop where
  | answered (p r) : Next (.reading p) (.done r)
  | read (q k row) : Next (.reading (.query q k)) (.reading (k row))
  | begin (body recover) : Next (.reading (.pure (.transaction body recover))) (.inTx body recover [] body [] [])
  | query (body recover told q k ws held told' row) :
      Next (.inTx body recover told (.query q k) ws held) (.inTx body recover told' (k row) ws held)
  | stmt (body recover told s k ws held told' ans ws' held') :
      Next (.inTx body recover told (.stmt s k) ws held) (.inTx body recover told' (k ans) ws' held')
  | ended (body recover told p ws held r) : Next (.inTx body recover told p ws held) (.done r)

/-- What comes after, first. -/
def Phase.After (ph' ph : Phase E ρ) : Prop := ph.Next ph'

theorem Phase.acc_done (r : Except ε ρ) : Acc After (.done r : Phase E ρ) := by
  constructor
  intro ph h
  cases h

theorem Phase.acc_inTx (body : Prog I ε ρ) (recover : ε → Except ε ρ) (p : Prog I ε ρ) :
    ∀ told ws held, Acc After (.inTx body recover told p ws held : Phase E ρ) := by
  induction p with
  | pure a | throw e =>
    intro told ws held
    constructor
    intro ph h
    cases h
    exact acc_done _
  | query q k ih =>
    intro told ws held
    constructor
    intro ph h
    cases h with
    | query => exact ih _ _ _ _
    | ended => exact acc_done _
  | stmt s k ih =>
    intro told ws held
    constructor
    intro ph h
    cases h with
    | stmt => exact ih _ _ _ _
    | ended => exact acc_done _

theorem Phase.acc_reading (p : Call I ε ρ) : Acc After (.reading p : Phase E ρ) := by
  induction p with
  | pure plan =>
    constructor
    intro ph h
    cases h with
    | answered => exact acc_done _
    | begin => exact acc_inTx _ _ _ _ _ _
  | throw e =>
    constructor
    intro ph h
    cases h
    exact acc_done _
  | query q k ih =>
    constructor
    intro ph h
    cases h with
    | answered => exact acc_done _
    | read => exact ih _
  | stmt s k => exact nomatch s

/-- A session cannot go on for ever. -/
theorem Phase.after_wellFounded : WellFounded (After : Phase E ρ → Phase E ρ → Prop) := by
  constructor
  intro ph
  cases ph with
  | reading p => exact acc_reading p
  | inTx body recover told p ws held => exact acc_inTx body recover p told ws held
  | done r => exact acc_done r

variable {ι : Type} [DecidableEq ι] {c d : Config E ι ρ}

theorem Step.next {i : ι} (h : Step c i d) : (c.phase i).Next (d.phase i) := by
  have moved : ∀ ph : Phase E ρ, (c.phase i).Next ph → (c.phase i).Next (Function.update c.phase i ph i) := by
    intro ph hph
    rwa [Function.update_self]
  cases h with
  | reply p r hp => exact moved _ (hp ▸ .answered _ _)
  | refused q k e hp => exact moved _ (hp ▸ .answered _ _)
  | read q k row hp => exact moved _ (hp ▸ .read _ _ _)
  | begin body recover hp => exact moved _ (hp ▸ .begin _ _)
  | query _ _ _ _ _ _ _ _ hp => exact moved _ (hp ▸ .query _ _ _ _ _ _ _ _ _)
  | stmt _ _ _ _ _ _ _ _ _ hp => exact moved _ (hp ▸ .stmt _ _ _ _ _ _ _ _ _ _ _)
  | rollback _ _ _ _ _ _ _ _ hp => exact moved _ (hp ▸ .ended _ _ _ _ _ _ _)
  | commit _ _ _ _ _ _ hp => exact moved _ (hp ▸ .ended _ _ _ _ _ _ _)

variable [Fintype ι] [DecidableEq E.Resource]

/-- One configuration comes by one event out of another. -/
def Config.After (d c : Config E ι ρ) : Prop := ∃ a, c.act a = some d

/-- **No run is endless.** -/
theorem Config.after_wellFounded : WellFounded (Config.After : Config E ι ρ → Config E ι ρ → Prop) := by
  have product : WellFounded (Pi.Lex (WellOrderingRel : ι → ι → Prop) fun {_} => (Phase.After : Phase E ρ → Phase E ρ → Prop)) :=
    Pi.Lex.wellFounded _ fun _ => Phase.after_wellFounded
  refine Subrelation.wf ?_ (InvImage.wf Config.phase product)
  rintro d c ⟨a, hact⟩
  have hstep := step_of_act hact
  exact ⟨a.session, fun j hj => hstep.others fun heq => (irrefl_of WellOrderingRel j) (heq ▸ hj), hstep.next⟩

theorem Config.no_endless (run : ℕ → Config E ι ρ) : ¬ ∀ n, (run (n + 1)).After (run n) := by
  have : IsWellFounded _ (Config.After : Config E ι ρ → Config E ι ρ → Prop) := ⟨Config.after_wellFounded⟩
  obtain ⟨n, hn⟩ := WellFounded.not_rel_apply_succ (r := Config.After) run
  exact fun hrun => hn (hrun n)

/-- From every configuration some run leads to one where no session can send a statement. -/
theorem Config.finishes (c : Config E ι ρ) : ∃ d, Reaches c d ∧ ∀ i, d.advance i = none := by
  apply Config.after_wellFounded.induction c
  intro c ih
  by_cases hstuck : ∀ i, c.advance i = none
  · exact ⟨c, .refl c, hstuck⟩
  · obtain ⟨i, hi⟩ := not_forall.1 hstuck
    obtain ⟨e, he⟩ := Option.ne_none_iff_exists'.1 hi
    obtain ⟨d, hd, hstuck⟩ := ih e ⟨.advance i, he⟩
    exact ⟨d, ((Reaches.refl c).snoc (a := .advance i) he).trans hd, hstuck⟩

/-- A session that cannot send its next statement waits for another. -/
theorem Config.waits_of_stuck {i : ι} (hstuck : c.advance i = none) (hopen : ∀ r, c.phase i ≠ .done r) :
    ∃ j, c.Waits i j := by
  simp only [Config.advance] at hstuck
  split at hstuck
  · cases hstuck
  · cases hstuck
  · cases hstuck
  · split at hstuck <;> cases hstuck
  · rename_i s _ _
    cases s
  · split at hstuck <;> cases hstuck
  · cases hstuck
  · split at hstuck <;> cases hstuck
  · rename_i body recover told s k ws held hp
    split at hstuck
    · rename_i hblocked
      obtain ⟨j, hj, r, hr, hheld⟩ := hblocked
      refine ⟨j, hj, r, ?_, hheld⟩
      rw [hp]
      exact hr
    · split at hstuck <;> cases hstuck
  · rename_i r hp
    exact absurd hp (hopen r)

omit [Fintype ι] [DecidableEq ι] [DecidableEq E.Resource] in
theorem Config.Waits.open_ {i j : ι} (h : c.Waits i j) (r : Except ε ρ) : c.phase j ≠ .done r := by
  obtain ⟨-, x, -, hx⟩ := h
  intro hp
  rw [hp, Phase.held_done] at hx
  cases hx

/-- **Progress.** Where nothing can go on, every call is answered, or a session waits,
through others, for itself. -/
theorem Config.stuck (hstuck : ∀ i, c.advance i = none) :
    (∀ i, ∃ r, c.phase i = .done r) ∨ ∃ i, Relation.TransGen c.Waits i i := by
  by_contra hnot
  rw [not_or] at hnot
  obtain ⟨hopen, hacyclic⟩ := hnot
  obtain ⟨i, hi⟩ := not_forall.1 hopen
  have irreflexive : Std.Irrefl (Function.swap (Relation.TransGen c.Waits)) := ⟨fun i hi => hacyclic ⟨i, hi⟩⟩
  have transitive : IsTrans ι (Function.swap (Relation.TransGen c.Waits)) := ⟨fun _ _ _ h h' => h'.trans h⟩
  -- a session at the end of a longest chain of waits
  obtain ⟨last, hlast, hend⟩ := (Finite.wellFounded_of_trans_of_irrefl (Function.swap (Relation.TransGen c.Waits))).has_min
    {i | ¬ ∃ r, c.phase i = .done r} ⟨i, hi⟩
  obtain ⟨j, hj⟩ := Config.waits_of_stuck (hstuck last) fun r hr => hlast ⟨r, hr⟩
  refine hend j ?_ (.single hj)
  rintro ⟨r, hr⟩
  exact hj.open_ r hr

end Sessions
