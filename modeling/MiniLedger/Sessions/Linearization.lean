import MiniLedger.Sessions.Likeness
import MiniLedger.Sessions.Serialization

/-!
# One moment for each call

A call takes many statements, and others commit between them. `Timing.moment` gives each call
that is done one event of its own at which it could have been served whole: alone on the
tables committed then it answers what it answered, and leaves the tables as the event left
them. A commit is such an event by serialization. A refusal rests on answers, and those that
can go stale must each decide the refusal on the spot (`Wary`): then the event is the one
that was told so.
-/

namespace Sessions

variable {I : Interface} {ε α β ρ : Type} {E : Engine I ε}

/-! ## Programs that fail, alone -/

namespace Engine

/-- On committed tables `db`, after the writes `ws`, the program ends in the exception `e`,
for some values of the sequence counter. -/
def Fails (E : Engine I ε) (db : E.Tables) : Prog I ε α → List E.Write → ε → Prop
  | .pure _, _, _ => False
  | .throw e', _, e => e = e'
  | .query q k, ws, e =>
    E.answer q (E.view db ws) = .error e ∨
      ∃ row, E.answer q (E.view db ws) = .ok row ∧ Fails E db (k row) ws e
  | .stmt s k, ws, e =>
    (∃ n, E.exec s n (E.view db ws) = .error e) ∨
      ∃ n ans new, E.exec s n (E.view db ws) = .ok (ans, new) ∧ Fails E db (k ans) (ws ++ new) e

end Engine

/-- What is left of a replayed transaction decides what the whole of it fails with. -/
theorem Replay.fails {db : E.Tables} {body p : Prog I ε α} {told : List (Obs I)} {ws : List E.Write}
    {held : List E.Resource} (h : Replay E db body told p ws held) {e : ε} (hf : E.Fails db p ws e) :
    E.Fails db body [] e := by
  induction h with
  | start => exact hf
  | query _ ha ih => exact ih (.inr ⟨_, ha, hf⟩)
  | stmt _ hx ih => exact ih (.inr ⟨_, _, _, hx, hf⟩)

/-! ## A call served at once -/

namespace Likeness

variable (L : Likeness E) {db db' : E.Tables}

/-- A likeness that errors respect too. -/
structure Exact : Prop where
  refl : ∀ t, L.Like t t
  exec_error : ∀ {s n t t' e} (n'), L.Like t t' → E.exec s n t = .error e → E.exec s n' t' = .error e
  settle_error : ∀ {t t' ws ws' e}, L.Like t t' → List.Forall₂ L.LikeWrite ws ws' → E.settle t ws = .error e →
    E.settle t' ws' = .error e

/-- Alone on the tables `db`, whatever the sequence counter is, the call answers `x` and
leaves tables like `db'`. -/
def Serves (call : Call I ε ρ) (db : E.Tables) (x : Except ε ρ) (db' : E.Tables) : Prop :=
  ∀ n, (E.serve call ⟨db, n⟩).1 = x ∧ L.Like db' (E.serve call ⟨db, n⟩).2.db

variable {L}

/-- What a program may fail with, it fails with on tables alike. -/
theorem fails {R : Rules E} {post : List E.Resource → α → Prop} {held : List E.Resource} {p : Prog I ε α}
    {ws ws' : List E.Write} {e : ε} (hL : L.Exact) (h : L.Like db db') (hws : List.Forall₂ L.LikeWrite ws ws')
    (hf : R.Follows post held p) (hblind : ∀ q, R.mayAsk q → L.blind q) (hp : E.Fails db p ws e) (n : ℕ) :
    ∃ n', E.run db' p ws' n = (.error e, n') := by
  induction p generalizing held ws ws' n with
  | pure a => exact hp.elim
  | throw e' =>
    obtain rfl : e = e' := hp
    exact ⟨n, rfl⟩
  | query q k ih =>
    have hsame := L.answer_like (hblind q hf.1) (L.view h hws)
    obtain he | ⟨row, hrow, hp⟩ := hp
    · rw [hsame] at he
      exact ⟨n, by rw [Engine.run, he]⟩
    · obtain ⟨n', hrun⟩ := ih row hws (hf.2 row) hp n
      rw [hsame] at hrow
      exact ⟨n', by rw [Engine.run, hrow]; exact hrun⟩
  | stmt s k ih =>
    obtain ⟨m, he⟩ | ⟨m, ans, new, hx, hp⟩ := hp
    · exact ⟨n + E.draws s, by rw [Engine.run, hL.exec_error n (L.view h hws) he]⟩
    · obtain ⟨new', hx', hnew⟩ := L.exec_like n (L.view h hws) hx
      obtain ⟨n', hrun⟩ := ih ans (List.rel_append hws hnew) (hf.2 ans) hp (n + E.draws s)
      exact ⟨n', by rw [Engine.run, hx']; exact hrun⟩

section

variable {call : Call I ε ρ} {body : Prog I ε ρ} {recover : ε → Except ε ρ}

/-- A call that ends in its reads. -/
theorem serves_read (hL : L.Exact) {x : Except ε ρ} (hread : E.read db call = x.map .reply) : L.Serves call db x db := by
  intro n
  have hserve : E.serve call ⟨db, n⟩ = (x, ⟨db, n⟩) := by
    rw [Engine.serve, hread]
    cases x <;> rfl
  rw [hserve]
  exact ⟨rfl, hL.refl db⟩

variable (hL : L.Exact) {R : Rules E} (hblind : ∀ q, R.mayAsk q → L.blind q)
  (hf : R.Follows (fun _ _ => True) [] body) (hread : E.read db call = .ok (.transaction body recover))

include hL hblind hf hread

/-- A call whose transaction fails. -/
theorem serves_fails {e : ε} (hp : E.Fails db body [] e) : L.Serves call db (recover e) db := by
  intro n
  obtain ⟨n', hrun⟩ := fails hL (hL.refl db) .nil hf hblind hp n
  have hserve : E.serve call ⟨db, n⟩ = (recover e, ⟨db, n'⟩) := by
    simp only [Engine.serve, hread, Engine.transact, hrun]
  rw [hserve]
  exact ⟨rfl, hL.refl db⟩

/-- A call whose transaction violates a deferred constraint. -/
theorem serves_unsettled {r : ρ} {ws : List E.Write} {e : ε} (hy : E.Yields db body [] r ws)
    (hs : E.settle (E.view db ws) ws = .error e) : L.Serves call db (recover e) db := by
  intro n
  obtain ⟨ws', n', hrun, hws⟩ := L.run (hL.refl db) .nil hf hblind hy n
  have hs' := hL.settle_error (L.view (hL.refl db) hws) hws hs
  have hserve : E.serve call ⟨db, n⟩ = (recover e, ⟨db, n'⟩) := by
    simp only [Engine.serve, hread, Engine.transact, hrun, hs']
  rw [hserve]
  exact ⟨rfl, hL.refl db⟩

/-- A call that commits. -/
theorem serves_commits {r : ρ} {ws : List E.Write} (hy : E.Yields db body [] r ws)
    (hs : E.settle (E.view db ws) ws = .ok ()) : L.Serves call db (.ok r) (E.view db ws) := by
  intro n
  obtain ⟨ws', n', hrun, hws⟩ := L.run (hL.refl db) .nil hf hblind hy n
  have hs' := L.settle_like (L.view (hL.refl db) hws) hws hs
  have hserve : E.serve call ⟨db, n⟩ = (.ok r, ⟨E.view db ws', n'⟩) := by
    simp only [Engine.serve, hread, Engine.transact, hrun, hs']
  rw [hserve]
  exact ⟨rfl, L.view (hL.refl db) hws⟩

end

end Likeness

/-! ## Calls whose stale answers are final -/

/-- What a call may be told that is not so later, and tables on which the rest of it is
known. -/
structure Caution (E : Engine I ε) where
  /-- The queries of the call. -/
  asks : I.Query → Prop
  /-- The answers that can go stale. -/
  risk : Obs I → Prop
  Sane : E.Tables → Prop
  SaneWrite : E.Write → Prop
  sane_apply : ∀ {t w}, Sane t → SaneWrite w → Sane (E.apply t w)

namespace Caution

variable (K : Caution E)

theorem sane_view {db : E.Tables} {ws : List E.Write} (h : K.Sane db) (hws : ∀ w ∈ ws, K.SaneWrite w) :
    K.Sane (E.view db ws) := by
  induction ws generalizing db with
  | nil => exact h
  | cons w ws ih =>
    rw [List.forall_mem_cons] at hws
    exact ih (K.sane_apply h hws.1) hws.2

/-- On sane tables the program asks some more and throws `e`. -/
def Throws (e : ε) : Prog I ε α → Prop
  | .pure _ => False
  | .throw e' => e = e'
  | .query q k => ∀ t, K.Sane t → ∃ row, E.answer q t = .ok row ∧ Throws e (k row)
  | .stmt _ _ => False

/-- Its queries are those named, its writes are sane, and an answer at risk decides what it
throws. -/
def Wary : Prog I ε α → Prop
  | .pure _ => True
  | .throw _ => True
  | .query q k => K.asks q ∧ ∀ row, (K.risk (.row q row) → ∃ e, K.Throws e (k row)) ∧ Wary (k row)
  | .stmt s k => (∀ n t ans new, E.exec s n t = .ok (ans, new) → ∀ w ∈ new, K.SaneWrite w) ∧
      ∀ ans, (K.risk (.ans s ans) → ∃ e, K.Throws e (k ans)) ∧ Wary (k ans)

/-- The call is over but for its answer `x`. -/
def Over (x : Except ε ρ) : Call I ε ρ → Prop
  | .pure (.reply r) => x = .ok r
  | .pure (.transaction _ _) => False
  | .throw e => x = .error e
  | .query _ _ => False
  | .stmt s _ => nomatch s

/-- Others' commits leave the row as it is. -/
def Lasting (D : Discipline E) (q : I.Query) (row : I.Row q) : Prop :=
  ∀ db held ws, D.Sound db → D.Footprint db held ws → E.answer q db = .ok row → E.answer q (E.view db ws) = .ok row

/-- The reads before the transaction last or end the call, and the transaction is wary. -/
def WaryCall (D : Discipline E) : Call I ε ρ → Prop
  | .pure (.reply _) => True
  | .pure (.transaction body _) => K.Wary body
  | .throw _ => True
  | .query q k => ∀ row, (Lasting D q row ∨ ∃ x, Over x (k row)) ∧ WaryCall D (k row)
  | .stmt s _ => nomatch s

variable {K}

theorem Over.read {x : Except ε ρ} {p : Call I ε ρ} (h : Over x p) (db : E.Tables) :
    E.read db p = x.map .reply := by
  cases p with
  | pure plan =>
    cases plan with
    | reply r => cases h; rfl
    | transaction body recover => exact h.elim
  | throw e => cases h; rfl
  | query q k => exact h.elim
  | stmt s k => exact nomatch s

theorem Throws.fails {e : ε} {p : Prog I ε α} (h : K.Throws e p) {db : E.Tables} {ws : List E.Write}
    (hsane : K.Sane (E.view db ws)) : E.Fails db p ws e := by
  induction p with
  | pure a => exact h.elim
  | throw e' => exact h
  | query q k ih =>
    obtain ⟨row, hrow, h⟩ := h _ hsane
    exact .inr ⟨row, hrow, ih row h⟩
  | stmt s k => exact h.elim

theorem throws_bind {e : ε} {p : Prog I ε α} {f : α → Prog I ε β} (h : K.Throws e p) : K.Throws e (p.bind f) := by
  induction p with
  | pure a => exact h.elim
  | throw e' => exact h
  | query q k ih =>
    intro t ht
    obtain ⟨row, hrow, h⟩ := h t ht
    exact ⟨row, hrow, ih row h⟩
  | stmt s k => exact h.elim

/-- A program whose values all lead to wary programs, and whose stale answers decide what
the whole throws. -/
theorem wary_bind {p : Prog I ε α} {f : α → Prog I ε β} (h : K.Wary p) (hf : ∀ a, K.Wary (f a)) : K.Wary (p.bind f) := by
  induction p with
  | pure a => exact hf a
  | throw e => trivial
  | query q k ih =>
    refine ⟨h.1, fun row => ⟨fun hrisk => ?_, ih row (h.2 row).2⟩⟩
    obtain ⟨e, he⟩ := (h.2 row).1 hrisk
    exact ⟨e, throws_bind he⟩
  | stmt s k ih =>
    refine ⟨h.1, fun ans => ⟨fun hrisk => ?_, ih ans (h.2 ans).2⟩⟩
    obtain ⟨e, he⟩ := (h.2 ans).1 hrisk
    exact ⟨e, throws_bind he⟩

end Caution

/-! ## Replays nobody disturbs -/

/-- What the client was told is so on the tables `t`. -/
def Obs.Holds (E : Engine I ε) (t : E.Tables) : Obs I → Prop
  | .row q r => E.answer q t = .ok r
  | .ans s a => ∃ n new, E.exec s n t = .ok (a, new)

/-- The query of an answer is one the call asks. -/
def Caution.Asked (K : Caution E) : Obs I → Prop
  | .row q _ => K.asks q
  | .ans _ _ => True

/-- None of what was told is at risk, so the commit of another session leaves the replay. -/
theorem Replay.undisturbed {D : Discipline E} {db : E.Tables} {body p : Prog I ε α} {told : List (Obs I)}
    {ws ws' : List E.Write} {held held' : List E.Resource} (h : Replay E db body told p ws held)
    {post : List E.Resource → α → Prop} (hf : D.toRules.Follows post [] body) (hfp : D.Footprint db held' ws')
    (hd : held.Disjoint held') (hfresh : ∀ o ∈ told, ∀ ws held, D.Footprint db held ws → o.Holds E (E.view db ws) →
      ¬ D.Stale o (E.view db ws')) :
    Replay E (E.view db ws') body told p ws held := by
  induction h with
  | start => exact .start
  | @query told q k ws held row hr ha ih =>
    have hr' := ih hd fun o ho => hfresh o (List.mem_append_left _ ho)
    obtain ha' | stale := D.stable_row (hr.follows hf).1 (hr.footprint hf) hfp hd ha
    · exact .query hr' ha'
    · exact absurd stale (hfresh _ (List.mem_append_right _ (List.mem_singleton_self _)) ws held (hr.footprint hf) ha)
  | @stmt told s k ws held n ans new hr hx ih =>
    have hr' := ih (fun _ hm => hd (List.mem_append_left _ hm)) fun o ho => hfresh o (List.mem_append_left _ ho)
    obtain hx' | stale := D.stable_ans (hr.follows hf).1 (hr.footprint hf) hfp hd hx
    · exact .stmt hr' hx'
    · exact absurd stale (hfresh _ (List.mem_append_right _ (List.mem_singleton_self _)) ws held (hr.footprint hf)
        ⟨n, new, hx⟩)

/-- The reads of the call so far, each with a row that lasts, leave `p`. -/
inductive LastingReads (D : Discipline E) (db : E.Tables) (call : Call I ε ρ) : Call I ε ρ → Prop where
  | start : LastingReads D db call call
  | query {q k row} : LastingReads D db call (.query q k) → E.answer q db = .ok row → Caution.Lasting D q row →
      LastingReads D db call (k row)

namespace LastingReads

variable {D : Discipline E} {db : E.Tables} {call p : Call I ε ρ}

theorem reread (h : LastingReads D db call p) : Reread E db call p := by
  induction h with
  | start => exact .start
  | query _ ha _ ih => exact .query ih ha

theorem commit {held : List E.Resource} {ws : List E.Write} (h : LastingReads D db call p) (hs : D.Sound db)
    (hfp : D.Footprint db held ws) : LastingReads D (E.view db ws) call p := by
  induction h with
  | start => exact .start
  | query _ ha hlast ih => exact .query ih (hlast _ _ _ hs hfp ha) hlast

end LastingReads

/-! ## The moment of a call -/

section

variable {ι : Type} [DecidableEq ι] [Fintype ι] [DecidableEq E.Resource] {D : Discipline E} {L : Likeness E}
  {K : Caution E} {calls : ι → Call I ε ρ} {start c d : Config E ι ρ} {i : ι} {as : List (Act E ι)}

/-- Among the events `as` from `start` on is one of session `i` at which its call, served
alone and whole, answers `x` and does to the tables what the event did. -/
def Moment (L : Likeness E) (calls : ι → Call I ε ρ) (start : Config E ι ρ) (i : ι) (as : List (Act E ι))
    (x : Except ε ρ) : Prop :=
  ∃ before after c d, as = before ++ .advance i :: after ∧ Run start before c ∧ c.act (.advance i) = some d ∧
    L.Serves (calls i) c.db x d.db

theorem Run.of_play {bs : List (Act E ι)} (h : Run start as c) (hplay : c.play bs = some d) : Run start (as ++ bs) d := by
  induction bs generalizing as c with
  | nil =>
    cases hplay
    rwa [List.append_nil]
  | cons b bs ih =>
    obtain ⟨e, hact, hplay⟩ := Option.bind_eq_some_iff.1 hplay
    have hrun := ih (h.snoc hact) hplay
    rwa [List.append_assoc] at hrun

theorem Run.played (hplay : start.play as = some d) : Run start as d := Run.refl.of_play hplay

theorem Run.play (h : Run start as c) : start.play as = some c := by
  induction h with
  | refl => rfl
  | snoc _ hact ih => rw [Config.play_append ih, Config.play, hact, Option.bind_some, Config.play]

/-- What a run passed before the first event of a session leads to where the session sets off. -/
theorem Run.since {bs more : List (Act E ι)} {a : Act E ι} {e : Config E ι ρ} (hbs : bs <+: as ++ a :: more)
    (hidle : ∀ b ∈ bs, b.session ≠ a.session) (hd : Run start bs d) (he : Run start as e) : Reaches d e := by
  obtain ⟨rest, rfl⟩ : bs <+: as := by
    obtain h | ⟨rest, rfl⟩ := List.prefix_or_prefix_of_prefix hbs (List.prefix_append as (a :: more))
    · exact h
    · cases rest with
      | nil =>
        rw [List.append_nil]
      | cons b rest =>
        obtain ⟨_, hmore⟩ := hbs
        rw [List.append_assoc, List.append_cancel_left_eq, List.cons_append] at hmore
        have hb : b = a := (List.cons.inj hmore).1
        exact absurd (congrArg Act.session hb) (hidle b (List.mem_append_right _ List.mem_cons_self))
  exact (Reaches.refl d).of_play ((Config.play_append hd.play rest).symm.trans he.play)

/-- Later in a run the log is longer. -/
theorem Run.log_prefix {bs : List (Act E ι)} (h : Run start (as ++ bs) c) (h' : Run start as d) : d.log <+: c.log := by
  have hplay : d.play bs = some c := (Config.play_append h'.play bs).symm.trans h.play
  have hreaches : Reaches d c := (Reaches.refl d).of_play hplay
  refine hreaches.invariant (P := fun c => d.log <+: c.log) (List.prefix_refl _) ?_
  intro c e i hc hstep
  cases hstep with
  | commit => exact hc.trans (List.prefix_append ..)
  | _ => exact hc

theorem Moment.snoc {x : Except ε ρ} {a : Act E ι} (h : Moment L calls start i as x) :
    Moment L calls start i (as ++ [a]) x := by
  obtain ⟨before, after, c, d, rfl, hrun, hact, hserves⟩ := h
  exact ⟨before, after ++ [a], c, d, by simp, hrun, hact, hserves⟩

/-- Where a session stands: on the tables as they are, or past the moment that decided its
answer. -/
def Phase.Timed (D : Discipline E) (L : Likeness E) (K : Caution E) (calls : ι → Call I ε ρ) (start : Config E ι ρ)
    (i : ι) (as : List (Act E ι)) (db : E.Tables) : Phase E ρ → Prop
  | .reading p => K.WaryCall D p ∧
      (LastingReads D db (calls i) p ∨ ∃ x, Caution.Over x p ∧ Moment L calls start i as x)
  | .inTx body recover told p ws held =>
    LastingReads D db (calls i) (.pure (.transaction body recover)) ∧ D.toRules.Follows (fun _ _ => True) [] body ∧
      D.Footprint db held ws ∧ K.Wary p ∧ (∀ w ∈ ws, K.SaneWrite w) ∧
      ((Replay E db body told p ws held ∧ ∀ o ∈ told, K.Asked o ∧ ¬ K.risk o) ∨
        ∃ e, K.Throws e p ∧ Moment L calls start i as (recover e))
  | .done x => Moment L calls start i as x

/-- What the moments of session `i` rest on. -/
structure Timing (D : Discipline E) (L : Likeness E) (K : Caution E) (calls : ι → Call I ε ρ) (start : Config E ι ρ)
    (i : ι) : Prop where
  lawful : start.Lawful D calls
  disciplined : ∀ j, D.Disciplined (calls j)
  exact : L.Exact
  blind : ∀ q, D.mayAsk q → L.blind q
  sane : ∀ c, Reaches start c → K.Sane c.db
  wary : K.WaryCall D (calls i)
  /-- What another session's commit makes untrue was at risk. -/
  risk : ∀ c, Reaches start c → ∀ j, j ≠ i → ∀ r ws', E.Commits c.db (calls j) r ws' → ∀ o ws held, K.Asked o →
    D.Footprint c.db held ws → o.Holds E (E.view c.db ws) → D.Stale o (E.view c.db ws') → K.risk o

namespace Timing

variable (T : Timing D L K calls start i)

include T

theorem lawful_of (h : Reaches start c) : c.Lawful D calls :=
  h.invariant T.lawful fun _ _ _ hl hstep => hl.step T.disciplined hstep

/-- The event of another session. -/
theorem others {j : ι} (hj : j ≠ i) (h : Reaches start c) (hstep : Step c j d) (a : Act E ι)
    (hph : (c.phase i).Timed D L K calls start i as c.db) : (d.phase i).Timed D L K calls start i (as ++ [a]) d.db := by
  rw [hstep.others (Ne.symm hj)]
  have hlawful := T.lawful_of h
  have keep : (c.phase i).Timed D L K calls start i (as ++ [a]) c.db := by
    revert hph
    cases c.phase i with
    | reading p => exact fun hph => ⟨hph.1, hph.2.imp_right fun ⟨x, hx, hm⟩ => ⟨x, hx, hm.snoc⟩⟩
    | inTx body recover told p ws held =>
      rintro ⟨hreads, hf, hfp, hw, hsane, hp⟩
      exact ⟨hreads, hf, hfp, hw, hsane, hp.imp_right fun ⟨e, he, hm⟩ => ⟨e, he, hm.snoc⟩⟩
    | done x => exact fun hph => hph.snoc
  cases hstep with
  | commit body recover told r ws' held' hp hs =>
    obtain ⟨hcommits, hfp'⟩ := hlawful.commits hp hs
    have hdis := hlawful.exclusive i j (Ne.symm hj)
    rw [hp, Phase.held_inTx] at hdis
    show (c.phase i).Timed D L K calls start i (as ++ [a]) (E.view c.db ws')
    revert keep hdis
    cases c.phase i with
    | reading p => exact fun keep _ => ⟨keep.1, keep.2.imp_left fun hreads => hreads.commit hlawful.sound hfp'⟩
    | inTx body recover told p ws held =>
      rintro ⟨hreads, hf, hfp, hw, hsane, hp⟩ hdis
      refine ⟨hreads.commit hlawful.sound hfp', hf, D.footprint_commit hfp hfp' hdis, hw, hsane,
        hp.imp_left fun ⟨hrep, htold⟩ => ⟨?_, htold⟩⟩
      refine hrep.undisturbed hf hfp' hdis fun o ho ws held hfp hholds hstale => ?_
      exact (htold o ho).2 (T.risk c h j hj r ws' hcommits o ws held (htold o ho).1 hfp hholds hstale)
    | done x => exact fun keep _ => keep
  | _ => exact keep

omit T in
/-- The event at hand is the moment. -/
theorem here {x : Except ε ρ} (hrun : Run start as c) (hact : c.act (.advance i) = some d)
    (hserves : L.Serves (calls i) c.db x d.db) : Moment L calls start i (as ++ [.advance i]) x :=
  ⟨as, [], c, d, rfl, hrun, hact, hserves⟩

/-- The event of the session itself, before its transaction. -/
theorem own_reading (hrun : Run start as c) (hact : c.act (.advance i) = some d) {p : Call I ε ρ}
    (hp : c.phase i = .reading p) (hph : (Phase.reading p : Phase E ρ).Timed D L K calls start i as c.db) :
    (d.phase i).Timed D L K calls start i (as ++ [.advance i]) d.db := by
  obtain ⟨hwary, hreads⟩ := hph
  -- an answer given now is given whole
  have ended : ∀ x, Caution.Over x p → d = c.goto i (.done x) →
      (d.phase i).Timed D L K calls start i (as ++ [.advance i]) d.db := by
    rintro x hx rfl
    rw [Config.goto_phase, Function.update_self]
    obtain hreads | ⟨y, hy, hmoment⟩ := hreads
    · exact here hrun hact (Likeness.serves_read T.exact (hreads.reread.read_eq ▸ hx.read c.db))
    · obtain rfl : x = y := by
        have hsame := (hx.read c.db).symm.trans (hy.read c.db)
        cases x <;> cases y <;> cases hsame <;> rfl
      exact hmoment.snoc
  have hact' := hact
  simp only [Config.act, Config.advance, hp] at hact
  cases p with
  | pure plan =>
    cases plan with
    | reply r => cases hact; exact ended (.ok r) rfl rfl
    | transaction body recover =>
      cases hact
      rw [Config.goto_phase, Function.update_self]
      have hreads := hreads.resolve_right (by rintro ⟨_, hx, _⟩; exact hx)
      have hbody : D.Good body := Discipline.reread_returns (T.disciplined i).2 hreads.reread body recover rfl
      exact ⟨hreads, hbody.1, D.footprint_nil _, hwary, by simp, .inl ⟨.start, by simp⟩⟩
  | throw e => cases hact; exact ended (.error e) rfl rfl
  | stmt s k => cases s
  | query q k =>
    have hreads := hreads.resolve_right (by rintro ⟨_, hx, _⟩; exact hx)
    dsimp only at hact
    split at hact
    · rename_i row ha
      cases hact
      rw [Config.goto_phase, Function.update_self]
      refine ⟨(hwary row).2, ?_⟩
      obtain hlast | ⟨x, hx⟩ := (hwary row).1
      · exact .inl (hreads.query ha hlast)
      · refine .inr ⟨x, hx, here hrun hact' (Likeness.serves_read T.exact ?_)⟩
        rw [← hreads.reread.read_eq, Engine.read, ha]
        exact hx.read c.db
    · rename_i e ha
      cases hact
      rw [Config.goto_phase, Function.update_self]
      refine here hrun hact' (Likeness.serves_read T.exact ?_)
      rw [← hreads.reread.read_eq, Engine.read, ha]
      rfl

/-- The event of the session itself, in its transaction. -/
theorem own_inTx (h : Reaches start c) (hrun : Run start as c) (hact : c.act (.advance i) = some d) {body : Prog I ε ρ}
    {recover : ε → Except ε ρ} {told : List (Obs I)} {p : Prog I ε ρ} {ws : List E.Write} {held : List E.Resource}
    (hp : c.phase i = .inTx body recover told p ws held)
    (hph : (Phase.inTx body recover told p ws held : Phase E ρ).Timed D L K calls start i as c.db) :
    (d.phase i).Timed D L K calls start i (as ++ [.advance i]) d.db := by
  obtain ⟨hreads, hf, hfp, hwary, hws, hstands⟩ := hph
  have hread : E.read c.db (calls i) = .ok (.transaction body recover) := hreads.reread.read_eq.symm
  have hsane : K.Sane (E.view c.db ws) := K.sane_view (T.sane c h) hws
  -- what the rest fails with, the call answers now
  have fails : ∀ {p' : Prog I ε ρ} {told' ws' held' e}, Replay E c.db body told' p' ws' held' → E.Fails c.db p' ws' e →
      d.db = c.db → Moment L calls start i (as ++ [.advance i]) (recover e) := by
    intro p' told' ws' held' e hrep hfails hdb
    exact here hrun hact (hdb ▸ Likeness.serves_fails T.exact T.blind hf hread (hrep.fails hfails))
  have hact' := hact
  simp only [Config.act, Config.advance, hp] at hact
  cases p with
  | pure r =>
    obtain ⟨hrep, -⟩ := hstands.resolve_right (by rintro ⟨_, he, _⟩; exact he)
    have hy : E.Yields c.db body [] r ws := hrep.yields ⟨rfl, rfl⟩
    dsimp only at hact
    split at hact
    · rename_i hs
      cases hact
      simp only [Config.commit, Function.update_self]
      exact here hrun hact' (Likeness.serves_commits T.exact T.blind hf hread hy hs)
    · rename_i e hs
      cases hact
      rw [Config.goto_phase, Function.update_self]
      exact here hrun hact' (Likeness.serves_unsettled T.exact T.blind hf hread hy hs)
  | throw e =>
    cases hact
    rw [Config.goto_phase, Function.update_self]
    obtain ⟨hrep, -⟩ | ⟨e', he, hmoment⟩ := hstands
    · exact fails hrep rfl rfl
    · obtain rfl : e' = e := he
      exact hmoment.snoc
  | query q k =>
    dsimp only at hact
    split at hact
    · rename_i row ha
      cases hact
      rw [Config.goto_phase, Function.update_self]
      refine ⟨hreads, hf, hfp, (hwary.2 row).2, hws, ?_⟩
      obtain ⟨hrep, htold⟩ | ⟨e, he, hmoment⟩ := hstands
      · by_cases hrisk : K.risk (.row q row)
        · obtain ⟨e, he⟩ := (hwary.2 row).1 hrisk
          exact .inr ⟨e, he, fails (hrep.query ha) (he.fails hsane) rfl⟩
        · refine .inl ⟨hrep.query ha, fun o ho => ?_⟩
          obtain ho | ho := List.mem_append.1 ho
          · exact htold o ho
          · rw [List.mem_singleton.1 ho]
            exact ⟨hwary.1, hrisk⟩
      · obtain ⟨row', ha', he⟩ := he _ hsane
        obtain rfl : row' = row := Except.ok.inj (ha'.symm.trans ha)
        exact .inr ⟨e, he, hmoment.snoc⟩
    · rename_i e ha
      cases hact
      rw [Config.goto_phase, Function.update_self]
      obtain ⟨hrep, -⟩ | ⟨e', he', -⟩ := hstands
      · exact fails hrep (.inl ha) rfl
      · obtain ⟨row', ha', -⟩ := he' _ hsane
        cases ha'.symm.trans ha
  | stmt s k =>
    obtain ⟨hrep, htold⟩ := hstands.resolve_right (by rintro ⟨_, he, _⟩; exact he)
    dsimp only at hact
    split at hact
    · cases hact
    · split at hact
      · rename_i ans new hx
        cases hact
        rw [Config.goto_phase, Function.update_self]
        have hws' : ∀ w ∈ ws ++ new, K.SaneWrite w := by
          intro w hw
          obtain hw | hw := List.mem_append.1 hw
          · exact hws w hw
          · exact hwary.1 _ _ _ _ hx w hw
        refine ⟨hreads, hf, D.footprint_step (hrep.follows hf).1 hfp hx, (hwary.2 ans).2, hws', ?_⟩
        by_cases hrisk : K.risk (.ans s ans)
        · obtain ⟨e, he⟩ := (hwary.2 ans).1 hrisk
          exact .inr ⟨e, he, fails (hrep.stmt hx) (he.fails (K.sane_view (T.sane c h) hws')) rfl⟩
        · refine .inl ⟨hrep.stmt hx, fun o ho => ?_⟩
          obtain ho | ho := List.mem_append.1 ho
          · exact htold o ho
          · rw [List.mem_singleton.1 ho]
            exact ⟨trivial, hrisk⟩
      · rename_i e hx
        cases hact
        rw [Config.goto_phase, Function.update_self]
        exact fails hrep (.inl ⟨_, hx⟩) rfl

/-- Along a run that does not end the session's transaction for it, the session is timed. -/
theorem run (hstart : start.phase i = .reading (calls i)) (hrun : Run start as c) (hkept : ∀ x, Act.abort i x ∉ as) :
    (c.phase i).Timed D L K calls start i as c.db := by
  induction hrun with
  | refl =>
    rw [hstart]
    exact ⟨T.wary, .inl .start⟩
  | @snoc as a c d hrun hact ih =>
    have hph := ih fun x hx => hkept x (List.mem_append_left _ hx)
    have hreach : Reaches start c := ⟨as, hrun⟩
    by_cases hself : a.session = i
    · cases a with
      | abort j x =>
        obtain rfl : j = i := hself
        exact absurd (List.mem_append_right _ (List.mem_singleton_self _)) (hkept x)
      | advance j =>
        obtain rfl : j = i := hself
        cases hp : c.phase j with
        | reading p => rw [hp] at hph; exact T.own_reading hrun hact hp hph
        | inTx body recover told p ws held => rw [hp] at hph; exact T.own_inTx hreach hrun hact hp hph
        | done x => cases (advance_done hp).symm.trans hact
    · exact T.others hself hreach (step_of_act hact) a hph

/-- **Linearizability.** A call that is done, and was not ended by the store, took effect and
was answered as if it had been served whole at one of its own events. -/
theorem moment (hstart : start.phase i = .reading (calls i)) (hrun : Run start as c) (hkept : ∀ x, Act.abort i x ∉ as)
    {x : Except ε ρ} (hdone : c.phase i = .done x) : Moment L calls start i as x := by
  have htimed := T.run hstart hrun hkept
  rw [hdone] at htimed
  exact htimed

end Timing

end

end Sessions
