import MiniLedger.Sessions.Serialization

/-!
# What the log of a run says

The log is a serial history: each entry is what its call commits alone on the tables the
entries before it left (`Chronicle`). A call that is done either stands in the log with its
reply or ended without a commit (`Reaches.outcome`).
-/

namespace Sessions

variable {I : Interface} {ε ρ : Type} {E : Engine I ε} {ι : Type}

/-- Each entry of the log is a commit of its call on the tables before it. -/
inductive Chronicle (E : Engine I ε) (calls : ι → Call I ε ρ) (start : E.Tables) :
    List (Commit E ι ρ) → E.Tables → Prop where
  | nil : Chronicle E calls start [] start
  | snoc {log db} (e : Commit E ι ρ) : Chronicle E calls start log db →
      E.Commits db (calls e.session) e.reply e.writes →
      Chronicle E calls start (log ++ [e]) (E.view db e.writes)

/-- What every commit keeps holds after any log. -/
theorem Chronicle.invariant {motive : E.Tables → Prop} {calls : ι → Call I ε ρ} {start db : E.Tables}
    {log : List (Commit E ι ρ)} (h : Chronicle E calls start log db) (h0 : motive start)
    (step : ∀ {db i r ws}, motive db → E.Commits db (calls i) r ws → motive (E.view db ws)) : motive db := by
  induction h with
  | nil => exact h0
  | snoc e _ hc ih => exact step ih hc

/-- What a commit says of the tables it leaves, and every later commit keeps, holds of each
entry of the log at its end. -/
theorem Chronicle.entries {motive : E.Tables → Prop} {Q : Commit E ι ρ → E.Tables → Prop} {calls : ι → Call I ε ρ}
    {start db : E.Tables} {log : List (Commit E ι ρ)} (h : Chronicle E calls start log db) (h0 : motive start)
    (step : ∀ {db i r ws}, motive db → E.Commits db (calls i) r ws → motive (E.view db ws))
    (new : ∀ {db} {e : Commit E ι ρ}, motive db → E.Commits db (calls e.session) e.reply e.writes → Q e (E.view db e.writes))
    (keep : ∀ {db e i r ws}, motive db → Q e db → E.Commits db (calls i) r ws → Q e (E.view db ws)) : ∀ e ∈ log, Q e db := by
  induction h with
  | nil => exact fun e he => absurd he List.not_mem_nil
  | @snoc log db last hlog hc ih =>
    have hdb : motive db := hlog.invariant h0 step
    intro e he
    rcases List.mem_append.1 he with he | he
    · exact keep hdb (ih e he) hc
    · rw [List.mem_singleton.1 he]
      exact new hdb hc

/-- Whatever the call does without committing satisfies `Q`. -/
def Otherwise (Q : Except ε ρ → Prop) (call : Call I ε ρ) : Prop :=
  (∀ e, Q (.error e)) ∧ call.Returns fun plan =>
    (∀ r, plan = .reply r → Q (.ok r)) ∧ ∀ body recover, plan = .transaction body recover → ∀ e, Q (recover e)

/-- How a session stands with the log. -/
def Phase.Outcome (Q : Except ε ρ → Prop) (log : List (Commit E ι ρ)) (i : ι) : Phase E ρ → Prop
  | .reading p => Otherwise Q p ∧ ∀ e ∈ log, e.session ≠ i
  | .inTx _ recover _ _ _ _ => (∀ e, Q (recover e)) ∧ ∀ e ∈ log, e.session ≠ i
  | .done r => (Q r ∧ ∀ e ∈ log, e.session ≠ i) ∨ ∃ e ∈ log, e.session = i ∧ r = .ok e.reply

/-- A log entry of another session changes nothing. -/
theorem Phase.Outcome.snoc {Q : Except ε ρ → Prop} {log : List (Commit E ι ρ)} {i : ι} {ph : Phase E ρ}
    {e : Commit E ι ρ} (hne : e.session ≠ i) (h : ph.Outcome Q log i) : ph.Outcome Q (log ++ [e]) i := by
  have fresh : (∀ e ∈ log, e.session ≠ i) → ∀ e' ∈ log ++ [e], e'.session ≠ i := by
    intro hlog e' he'
    rcases List.mem_append.1 he' with he' | he'
    · exact hlog e' he'
    · rwa [List.mem_singleton.1 he']
  cases ph with
  | reading p => exact ⟨h.1, fresh h.2⟩
  | inTx => exact ⟨h.1, fresh h.2⟩
  | done r =>
    rcases h with ⟨hq, hlog⟩ | ⟨e', he', hi, hr⟩
    · exact .inl ⟨hq, fresh hlog⟩
    · exact .inr ⟨e', List.mem_append_left _ he', hi, hr⟩

section

variable [DecidableEq ι] {D : Discipline E} {calls : ι → Call I ε ρ} {c c' : Config E ι ρ}

theorem Chronicle.step {start : E.Tables} (h : Chronicle E calls start c.log c.db) (hl : c.Lawful D calls) {i : ι}
    (hstep : Step c i c') : Chronicle E calls start c'.log c'.db := by
  cases hstep with
  | commit body recover told r ws held hp hs => exact h.snoc ⟨i, r, ws⟩ (hl.commits hp hs).1
  | _ => exact h

theorem outcome_step {Q : ι → Except ε ρ → Prop}
    (h : (∀ i, (c.phase i).Outcome (Q i) c.log i) ∧ (c.log.map Commit.session).Nodup) {i : ι} (hstep : Step c i c') :
    (∀ j, (c'.phase j).Outcome (Q j) c'.log j) ∧ (c'.log.map Commit.session).Nodup := by
  have hi := h.1 i
  have keep : ∀ ph : Phase E ρ, ph.Outcome (Q i) c.log i → ∀ j, (Function.update c.phase i ph j).Outcome (Q j) c.log j := by
    intro ph hph j
    by_cases hj : j = i
    · subst hj; rwa [Function.update_self]
    · rw [Function.update_of_ne hj]; exact h.1 j
  cases hstep with
  | reply p r hp hr =>
    rw [hp] at hi
    refine ⟨keep _ (.inl ⟨?_, hi.2⟩), h.2⟩
    cases r with
    | error e => exact hi.1.1 e
    | ok r => exact (Prog.returns_of_read hi.1.2 (hr c.db)).1 r rfl
  | refused q k e hp =>
    rw [hp] at hi
    exact ⟨keep _ (.inl ⟨hi.1.1 e, hi.2⟩), h.2⟩
  | read q k row hp =>
    rw [hp] at hi
    exact ⟨keep _ ⟨⟨hi.1.1, hi.1.2 row⟩, hi.2⟩, h.2⟩
  | begin body recover hp =>
    rw [hp] at hi
    exact ⟨keep _ ⟨(hi.1.2).2 body recover rfl, hi.2⟩, h.2⟩
  | query _ _ _ _ _ _ _ _ hp => rw [hp] at hi; exact ⟨keep _ hi, h.2⟩
  | stmt _ _ _ _ _ _ _ _ _ hp => rw [hp] at hi; exact ⟨keep _ hi, h.2⟩
  | rollback _ _ _ _ _ _ e _ hp => rw [hp] at hi; exact ⟨keep _ (.inl ⟨hi.1 e, hi.2⟩), h.2⟩
  | commit body recover told r ws held hp =>
    rw [hp] at hi
    refine ⟨fun j => ?_, ?_⟩
    · by_cases hj : j = i
      · subst hj
        simp only [Config.commit, Function.update_self]
        exact .inr ⟨⟨j, r, ws⟩, List.mem_append_right _ (List.mem_singleton_self _), rfl, rfl⟩
      · simp only [Config.commit, Function.update_of_ne hj]
        exact (h.1 j).snoc (Ne.symm hj)
    · rw [Config.commit, List.map_append, List.map_singleton]
      refine List.nodup_append.2 ⟨h.2, List.nodup_singleton _, ?_⟩
      rintro j hj _ hmem rfl
      obtain ⟨e, he, rfl⟩ := List.mem_map.1 hj
      exact hi.2 e he (List.mem_singleton.1 hmem)

variable [Fintype ι] [DecidableEq E.Resource]

/-- **Commit order is a serial order.** -/
theorem Reaches.chronicle {w : E.World} (hs : D.Sound w.db) (hd : ∀ i, D.Disciplined (calls i))
    (h : Reaches (Config.start w calls) c) : Chronicle E calls w.db c.log c.db := by
  refine (h.invariant (P := fun c => c.Lawful D calls ∧ Chronicle E calls w.db c.log c.db)
    ⟨Config.lawful_start hs, .nil⟩ ?_).2
  intro d e i hd' hstep
  exact ⟨hd'.1.step hd hstep, hd'.2.step hd'.1 hstep⟩

/-- Every session is in the log at most once, and a session that is done and not in the log
ended as its call may end without a commit. -/
theorem Reaches.outcome {w : E.World} {Q : ι → Except ε ρ → Prop} (hq : ∀ i, Otherwise (Q i) (calls i))
    (h : Reaches (Config.start w calls) c) :
    (∀ i, (c.phase i).Outcome (Q i) c.log i) ∧ (c.log.map Commit.session).Nodup :=
  h.invariant ⟨fun i => ⟨hq i, by simp [Config.start]⟩, List.nodup_nil⟩ fun _ _ _ hd hstep => outcome_step (Q := Q) hd hstep

end

end Sessions
