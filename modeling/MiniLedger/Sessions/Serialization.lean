import MiniLedger.Sessions.Rules

/-!
# Commit order is a serial order

A transaction that commits did, on the tables committed at that moment, exactly what it
would have done alone (`Config.Lawful.commits`). The argument replays the transaction: as
long as nobody commits, its answers are what its statements say now (`Replay`); a commit of
somebody else, whose writes stay within what that session holds, leaves every answer as it
is, unless the answer was one that can go stale, and a `Discipline` asks that a
transaction with a stale answer can no longer return (`Doomed`).
-/

namespace Sessions

variable {I : Interface} {ε α β ρ : Type}

/-- Rules, and what they give about one transaction's writes and answers while others
commit. -/
structure Discipline (E : Engine I ε) extends Rules E where
  /-- What holds of all committed tables. -/
  Sound : E.Tables → Prop
  /-- A transaction holding `held` wrote `ws`, valid on the committed tables. -/
  Footprint : E.Tables → List E.Resource → List E.Write → Prop
  /-- The committed tables now say otherwise than the answer did. -/
  Stale : Obs I → E.Tables → Prop
  /-- The statement fails from now on. -/
  Barred : E.Tables → I.Stmt → Prop
  footprint_nil : ∀ db, Footprint db [] []
  footprint_step : ∀ {db held ws s n ans new}, maySend held s → Footprint db held ws →
    E.exec s n (E.view db ws) = .ok (ans, new) → Footprint db (held ++ E.locks s ans) (ws ++ new)
  sound_commit : ∀ {db held ws}, Sound db → Footprint db held ws →
    E.settle (E.view db ws) ws = .ok () → Sound (E.view db ws)
  stable_row : ∀ {db held ws held' ws' q row}, mayAsk q → Footprint db held ws → Footprint db held' ws' →
    held.Disjoint held' → E.answer q (E.view db ws) = .ok row →
    E.answer q (E.view (E.view db ws') ws) = .ok row ∨ Stale (.row q row) (E.view db ws')
  stable_ans : ∀ {db held ws held' ws' s n ans new}, maySend held s → Footprint db held ws →
    Footprint db held' ws' → (held ++ E.locks s ans).Disjoint held' →
    E.exec s n (E.view db ws) = .ok (ans, new) →
    E.exec s n (E.view (E.view db ws') ws) = .ok (ans, new) ∨ Stale (.ans s ans) (E.view db ws')
  footprint_commit : ∀ {db held ws held' ws'}, Footprint db held ws → Footprint db held' ws' → held.Disjoint held' →
    Footprint (E.view db ws') held ws
  barred_fails : ∀ {db held s n ws r}, Barred db s → Footprint db held ws → E.exec s n (E.view db ws) ≠ .ok r
  barred_commit : ∀ {db s held' ws'}, Barred db s → Footprint db held' ws' → Barred (E.view db ws') s

namespace Discipline

variable {E : Engine I ε} (D : Discipline E)

/-- On tables `db` and all that follow, the program cannot return, except with a value
satisfying `bad`. -/
def Doomed (db : E.Tables) (bad : α → Prop) : Prog I ε α → Prop
  | .pure a => bad a
  | .throw _ => True
  | .query _ k => ∀ row, Doomed db bad (k row)
  | .stmt s k => D.Barred db s ∨ ∀ ans, Doomed db bad (k ans)

/-- Wherever an answer can go stale, the rest of the program is then doomed. -/
def Careful (bad : E.Tables → α → Prop) : Prog I ε α → Prop
  | .pure _ => True
  | .throw _ => True
  | .query q k => ∀ row, Careful bad (k row) ∧ ∀ db, D.Stale (.row q row) db → D.Doomed db (bad db) (k row)
  | .stmt s k => ∀ ans, Careful bad (k ans) ∧ ∀ db, D.Stale (.ans s ans) db → D.Doomed db (bad db) (k ans)

/-- A body that keeps the rules and is careful. -/
def Good (body : Prog I ε ρ) : Prop :=
  D.toRules.Follows (fun _ _ => True) [] body ∧ D.Careful (fun _ _ => False) body

variable {D}

theorem doomed_bind {db : E.Tables} {bad : β → Prop} {p : Prog I ε α} {f : α → Prog I ε β}
    (h : D.Doomed db (fun a => D.Doomed db bad (f a)) p) : D.Doomed db bad (p.bind f) := by
  induction p with
  | pure a => exact h
  | throw e => trivial
  | query q k ih => exact fun row => ih row (h row)
  | stmt s k ih => exact h.imp id fun h ans => ih ans (h ans)

/-- What every value of a program does, the program does. -/
theorem doomed_of_forall {db : E.Tables} {bad : α → Prop} (h : ∀ a, bad a) (p : Prog I ε α) : D.Doomed db bad p := by
  induction p with
  | pure a => exact h a
  | throw e => trivial
  | query q k ih => exact ih
  | stmt s k ih => exact .inr ih

theorem careful_bind {bad : E.Tables → β → Prop} {bad' : E.Tables → α → Prop} {p : Prog I ε α}
    {f : α → Prog I ε β} (h : D.Careful bad' p) (hf : ∀ a, D.Careful bad (f a))
    (hbad : ∀ db a, bad' db a → D.Doomed db (bad db) (f a)) : D.Careful bad (p.bind f) := by
  have doomed : ∀ db (q : Prog I ε α), D.Doomed db (bad' db) q → D.Doomed db (bad db) (q.bind f) := by
    intro db q hq
    refine doomed_bind ?_
    induction q with
    | pure a => exact hbad db a hq
    | throw e => trivial
    | query q k ih => exact fun row => ih row (hq row)
    | stmt s k ih => exact hq.imp id fun h ans => ih ans (h ans)
  induction p with
  | pure a => exact hf a
  | throw e => trivial
  | query q k ih => exact fun row => ⟨ih row (h row).1, fun db hs => doomed db _ ((h row).2 db hs)⟩
  | stmt s k ih => exact fun ans => ⟨ih ans (h ans).1, fun db hs => doomed db _ ((h ans).2 db hs)⟩

end Discipline

/-- Started on `db` with the answers `told`, the transaction of `body` has `p` left, having
written `ws` and holding `held`. -/
inductive Replay (E : Engine I ε) (db : E.Tables) (body : Prog I ε α) :
    List (Obs I) → Prog I ε α → List E.Write → List E.Resource → Prop where
  | start : Replay E db body [] body [] []
  | query {told q k ws held row} : Replay E db body told (.query q k) ws held →
      E.answer q (E.view db ws) = .ok row → Replay E db body (told ++ [.row q row]) (k row) ws held
  | stmt {told s k ws held n ans new} : Replay E db body told (.stmt s k) ws held →
      E.exec s n (E.view db ws) = .ok (ans, new) →
      Replay E db body (told ++ [.ans s ans]) (k ans) (ws ++ new) (held ++ E.locks s ans)

namespace Replay

variable {E : Engine I ε} {D : Discipline E} {db : E.Tables} {body p : Prog I ε α} {told : List (Obs I)}
  {ws ws' : List E.Write} {held held' : List E.Resource}

theorem follows (h : Replay E db body told p ws held) {post : List E.Resource → α → Prop}
    (hf : D.toRules.Follows post [] body) : D.toRules.Follows post held p := by
  induction h with
  | start => exact hf
  | query _ _ ih => exact ih.2 _
  | stmt _ _ ih => exact ih.2 _

theorem careful (h : Replay E db body told p ws held) {bad : E.Tables → α → Prop}
    (hc : D.Careful bad body) : D.Careful bad p := by
  induction h with
  | start => exact hc
  | query _ _ ih => exact (ih _).1
  | stmt _ _ ih => exact (ih _).1

theorem footprint (h : Replay E db body told p ws held) {post : List E.Resource → α → Prop}
    (hf : D.toRules.Follows post [] body) : D.Footprint db held ws := by
  induction h with
  | start => exact D.footprint_nil db
  | query _ _ ih => exact ih
  | stmt hr hx ih => exact D.footprint_step (hr.follows hf).1 ih hx

/-- What is left of a replayed transaction decides what the whole of it yields. -/
theorem yields (h : Replay E db body told p ws held) {a : α} (hy : E.Yields db p ws a ws') :
    E.Yields db body [] a ws' := by
  induction h with
  | start => exact hy
  | query _ ha ih => exact ih ⟨_, ha, hy⟩
  | stmt _ hx ih => exact ih ⟨_, _, _, hx, hy⟩

/-- The replay survives the commit of a session that holds nothing of it, or the rest of
the transaction is doomed. -/
theorem commit (h : Replay E db body told p ws held) {post : List E.Resource → α → Prop}
    (hf : D.toRules.Follows post [] body) (hc : D.Careful (fun _ _ => False) body)
    (hfp : D.Footprint db held' ws') (hd : held.Disjoint held') :
    Replay E (E.view db ws') body told p ws held ∨ D.Doomed (E.view db ws') (fun _ => False) p := by
  induction h with
  | start => exact .inl .start
  | @query told q k ws held row hr ha ih =>
    rcases ih hd with hr' | doomed
    · rcases D.stable_row (hr.follows hf).1 (hr.footprint hf) hfp hd ha with ha' | stale
      · exact .inl (.query hr' ha')
      · exact .inr ((hr.careful hc row).2 _ stale)
    · exact .inr (doomed row)
  | @stmt told s k ws held n ans new hr hx ih =>
    have hd' : held.Disjoint held' := fun _ hm => hd (List.mem_append_left _ hm)
    have stable := D.stable_ans (hr.follows hf).1 (hr.footprint hf) hfp hd hx
    rcases ih hd' with hr' | doomed
    · rcases stable with hx' | stale
      · exact .inl (.stmt hr' hx')
      · exact .inr ((hr.careful hc ans).2 _ stale)
    · rcases doomed with barred | doomed
      · -- the statement went through once: it is not barred unless its answer is stale
        rcases stable with hx' | stale
        · exact absurd hx' (D.barred_fails barred (D.footprint_commit (hr.footprint hf) hfp hd'))
        · exact .inr ((hr.careful hc ans).2 _ stale)
      · exact .inr (doomed ans)

end Replay

/-- The reads of `call` so far, repeated on `db`, leave `p`. -/
inductive Reread (E : Engine I ε) (db : E.Tables) (call : Call I ε ρ) : Call I ε ρ → Prop where
  | start : Reread E db call call
  | query {q k row} : Reread E db call (.query q k) → E.answer q db = .ok row → Reread E db call (k row)

theorem Reread.read_eq {E : Engine I ε} {db : E.Tables} {call p : Call I ε ρ} (h : Reread E db call p) :
    E.read db p = E.read db call := by
  induction h with
  | start => rfl
  | query _ ha ih => rw [← ih, Engine.read, ha]

/-- A call that will reply without a transaction. -/
def Inert (p : Call I ε ρ) : Prop :=
  p.Returns fun plan => ∀ body recover, plan ≠ .transaction body recover

namespace Discipline

variable {E : Engine I ε} (D : Discipline E)

/-- Each read of the call keeps its row when others commit, or leads to no transaction. -/
def Steady : Call I ε ρ → Prop
  | .pure _ => True
  | .throw _ => True
  | .query q k => ∀ row, Steady (k row) ∧
      ((∀ db held' ws', D.Sound db → D.Footprint db held' ws' → E.answer q db = .ok row →
        E.answer q (E.view db ws') = .ok row) ∨ Inert (k row))
  | .stmt s _ => nomatch s

/-- A call whose reads are steady and whose transaction is good. -/
def Disciplined (call : Call I ε ρ) : Prop :=
  D.Steady call ∧ call.Returns fun plan => ∀ body recover, plan = .transaction body recover → D.Good body

variable {D}

theorem Steady.of_reread {db : E.Tables} {call p : Call I ε ρ} (hs : D.Steady call)
    (h : Reread E db call p) : D.Steady p := by
  induction h with
  | start => exact hs
  | query _ _ ih => exact (ih _).1

theorem reread_returns {db : E.Tables} {call p : Call I ε ρ} {P : Plan I ε ρ → Prop} (hs : call.Returns P)
    (h : Reread E db call p) : p.Returns P := by
  induction h with
  | start => exact hs
  | query _ _ ih => exact ih _

theorem reread_commit {db : E.Tables} {call p : Call I ε ρ} {held' : List E.Resource} {ws' : List E.Write}
    (hs : D.Steady call) (h : Reread E db call p) (hsound : D.Sound db) (hfp : D.Footprint db held' ws') :
    Reread E (E.view db ws') call p ∨ Inert p := by
  induction h with
  | start => exact .inl .start
  | @query q k row hr ha ih =>
    rcases ih with hr' | inert
    · rcases (hs.of_reread hr row).2 with stable | inert
      · exact .inl (.query hr' (stable _ _ _ hsound hfp ha))
      · exact .inr inert
    · exact .inr (inert row)

end Discipline

variable {E : Engine I ε} {ι : Type} [DecidableEq ι]

/-- How a session stands with the committed tables. -/
def Phase.Lawful (D : Discipline E) (db : E.Tables) (call : Call I ε ρ) : Phase E ρ → Prop
  | .reading p => Reread E db call p ∨ Inert p
  | .inTx body recover told p ws held =>
    Reread E db call (.pure (.transaction body recover)) ∧ D.toRules.Follows (fun _ _ => True) held p ∧
      D.Footprint db held ws ∧ (Replay E db body told p ws held ∨ D.Doomed db (fun _ => False) p)
  | .done _ => True

/-- What holds in every configuration the calls reach. -/
structure Config.Lawful (D : Discipline E) (calls : ι → Call I ε ρ) (c : Config E ι ρ) : Prop where
  sound : D.Sound c.db
  exclusive : c.Exclusive
  phase : ∀ i, (c.phase i).Lawful D c.db (calls i)

section

variable {D : Discipline E} {calls : ι → Call I ε ρ} {c c' : Config E ι ρ}

omit [DecidableEq ι] in
theorem Config.lawful_start {w : E.World} (hs : D.Sound w.db) : (Config.start w calls).Lawful D calls where
  sound := hs
  exclusive := fun _ _ _ => by simp [Config.start, List.Disjoint]
  phase _ := .inl .start

/-- The commit of one session leaves every other session lawful. -/
theorem Phase.Lawful.commit {db : E.Tables} {call : Call I ε ρ} {ph : Phase E ρ} {held' : List E.Resource}
    {ws' : List E.Write} (hd : D.Disciplined call) (hsound : D.Sound db) (hfp : D.Footprint db held' ws')
    (hdis : ph.held.Disjoint held') (h : ph.Lawful D db call) : ph.Lawful D (E.view db ws') call := by
  have doomed : ∀ p : Prog I ε ρ, D.Doomed db (fun _ => False) p → D.Doomed (E.view db ws') (fun _ => False) p := by
    intro p hp
    induction p with
    | pure a => exact hp
    | throw e => trivial
    | query q k ih => exact fun row => ih row (hp row)
    | stmt s k ih => exact hp.imp (fun hb => D.barred_commit hb hfp) fun hk ans => ih ans (hk ans)
  cases ph with
  | reading p => exact h.elim (fun hr => Discipline.reread_commit hd.1 hr hsound hfp) .inr
  | done r => trivial
  | inTx body recover told p ws held =>
    obtain ⟨hr, hf, hown, hp⟩ := h
    have hbody : D.Good body := Discipline.reread_returns hd.2 hr body recover rfl
    refine ⟨?_, hf, D.footprint_commit hown hfp hdis,
      hp.elim (fun hrep => hrep.commit hbody.1 hbody.2 hfp hdis) fun hp => .inr (doomed p hp)⟩
    exact (Discipline.reread_commit hd.1 hr hsound hfp).resolve_right fun inert => inert body recover rfl

omit [DecidableEq ι] in
/-- In a lawful configuration a transaction about to commit has the effect of its call
run alone on the committed tables. -/
theorem Config.Lawful.commits (h : c.Lawful D calls) {i : ι} {body recover told r ws held}
    (hp : c.phase i = .inTx body recover told (.pure r) ws held)
    (hs : E.settle (E.view c.db ws) ws = .ok ()) :
    E.Commits c.db (calls i) r ws ∧ D.Footprint c.db held ws := by
  have hph := h.phase i
  rw [hp] at hph
  obtain ⟨hr, -, hfp, hrep | doomed⟩ := hph
  · have hread : E.read c.db (calls i) = .ok (.transaction body recover) := hr.read_eq.symm
    exact ⟨⟨body, recover, hread, hrep.yields ⟨rfl, rfl⟩, hs⟩, hfp⟩
  · exact doomed.elim

theorem Config.Lawful.step (h : c.Lawful D calls) (hd : ∀ i, D.Disciplined (calls i)) {i : ι}
    (hstep : Step c i c') : c'.Lawful D calls := by
  have hex := h.exclusive.step hstep
  have hi := h.phase i
  -- a step that commits nothing moves one session and keeps the tables
  have keep : ∀ ph : Phase E ρ, ph.Lawful D c.db (calls i) →
      ∀ j, (Function.update c.phase i ph j).Lawful D c.db (calls j) := by
    intro ph hph j
    by_cases hj : j = i
    · subst hj; rwa [Function.update_self]
    · rw [Function.update_of_ne hj]; exact h.phase j
  cases hstep with
  | reply | refused | rollback => exact ⟨h.sound, hex, keep _ trivial⟩
  | read q k row hp ha =>
    rw [hp] at hi
    exact ⟨h.sound, hex, keep _ (hi.imp (fun hr => .query hr ha) fun inert => inert row)⟩
  | begin body recover hp =>
    rw [hp] at hi
    have hr := hi.resolve_right fun inert => inert body recover rfl
    have hbody : D.Good body := Discipline.reread_returns (hd i).2 hr body recover rfl
    exact ⟨h.sound, hex, keep _ ⟨hr, hbody.1, D.footprint_nil _, .inl .start⟩⟩
  | query body recover told q k ws held row hp ha =>
    rw [hp] at hi
    obtain ⟨hr, hf, hfp, hrep⟩ := hi
    exact ⟨h.sound, hex, keep _ ⟨hr, hf.2 row, hfp, hrep.imp (fun hrep => .query hrep ha) fun hdm => hdm row⟩⟩
  | stmt body recover told s k ws held ans new hp hfree hx =>
    rw [hp] at hi
    obtain ⟨hr, hf, hfp, hrep⟩ := hi
    refine ⟨h.sound, hex, keep _ ⟨hr, hf.2 ans, D.footprint_step hf.1 hfp hx,
      hrep.imp (fun hrep => .stmt hrep hx) fun hdm => ?_⟩⟩
    exact hdm.resolve_left (fun hb => D.barred_fails hb hfp hx) ans
  | commit body recover told r ws held hp hs =>
    obtain ⟨_, hfp⟩ := h.commits hp hs
    refine ⟨D.sound_commit h.sound hfp hs, hex, fun j => ?_⟩
    by_cases hj : j = i
    · subst hj
      simp only [Config.commit, Function.update_self]
      trivial
    · simp only [Config.commit, Function.update_of_ne hj]
      refine (h.phase j).commit (hd j) h.sound hfp ?_
      have := h.exclusive j i hj
      rwa [hp] at this

variable [Fintype ι] [DecidableEq E.Resource]

/-- Every configuration disciplined calls reach is lawful. -/
theorem Reaches.lawful {w : E.World} (hs : D.Sound w.db) (hd : ∀ i, D.Disciplined (calls i))
    (h : Reaches (Config.start w calls) c) : c.Lawful D calls :=
  h.invariant (Config.lawful_start hs) fun _ _ _ hl hstep => hl.step hd hstep

end

end Sessions
