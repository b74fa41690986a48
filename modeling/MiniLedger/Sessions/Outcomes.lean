import MiniLedger.Sessions.Engine

/-!
# What a program alone ends in

`Ends` is the weakest precondition of a program alone in a transaction, for a postcondition
on what it returns and one on the exceptions it ends with. The values of the sequence
counter are left open. Unlike `Yields`, which says what a program that returned has done,
it says whether the program returns.
-/

namespace Sessions.Engine

variable {I : Interface} {ε α β ρ : Type} {E : Engine I ε} {db : E.Tables} {ws : List E.Write}

/-- On committed tables `db`, after the writes `ws`, the program returns with `post` or ends
in an exception with `fail`. -/
def Ends (E : Engine I ε) (db : E.Tables) (post : α → List E.Write → Prop) (fail : ε → Prop) :
    Prog I ε α → List E.Write → Prop
  | .pure a, ws => post a ws
  | .throw e, _ => fail e
  | .query q k, ws =>
    (∀ row, E.answer q (E.view db ws) = .ok row → Ends E db post fail (k row) ws) ∧
      ∀ e, E.answer q (E.view db ws) = .error e → fail e
  | .stmt s k, ws => ∀ n,
    (∀ ans new, E.exec s n (E.view db ws) = .ok (ans, new) → Ends E db post fail (k ans) (ws ++ new)) ∧
      ∀ e, E.exec s n (E.view db ws) = .error e → fail e

theorem Ends.mono {post post' : α → List E.Write → Prop} {fail fail' : ε → Prop} {p : Prog I ε α}
    (h : E.Ends db post fail p ws) (hpost : ∀ a ws, post a ws → post' a ws) (hfail : ∀ e, fail e → fail' e) :
    E.Ends db post' fail' p ws := by
  induction p generalizing ws with
  | pure a => exact hpost a ws h
  | throw e => exact hfail e h
  | query q k ih => exact ⟨fun row hrow => ih row (h.1 row hrow), fun e he => hfail e (h.2 e he)⟩
  | stmt s k ih =>
    intro n
    exact ⟨fun ans new hx => ih ans ((h n).1 ans new hx), fun e he => hfail e ((h n).2 e he)⟩

theorem ends_bind {post : β → List E.Write → Prop} {fail : ε → Prop} {p : Prog I ε α} {f : α → Prog I ε β}
    (h : E.Ends db (fun a mid => E.Ends db post fail (f a) mid) fail p ws) : E.Ends db post fail (p.bind f) ws := by
  induction p generalizing ws with
  | pure a => exact h
  | throw e => exact h
  | query q k ih => exact ⟨fun row hrow => ih row (h.1 row hrow), h.2⟩
  | stmt s k ih =>
    intro n
    exact ⟨fun ans new hx => ih ans ((h n).1 ans new hx), (h n).2⟩

/-- What it returns, it yields. -/
theorem Ends.and_yields {post : α → List E.Write → Prop} {fail : ε → Prop} {p : Prog I ε α}
    (h : E.Ends db post fail p ws) : E.Ends db (fun a ws' => post a ws' ∧ E.Yields db p ws a ws') fail p ws := by
  induction p generalizing ws with
  | pure a => exact ⟨h, rfl, rfl⟩
  | throw e => exact h
  | query q k ih =>
    refine ⟨fun row hrow => ?_, h.2⟩
    exact (ih row (h.1 row hrow)).mono (fun a ws' hy => ⟨hy.1, row, hrow, hy.2⟩) fun _ he => he
  | stmt s k ih =>
    intro n
    refine ⟨fun ans new hx => ?_, (h n).2⟩
    exact (ih ans ((h n).1 ans new hx)).mono (fun a ws' hy => ⟨hy.1, n, ans, new, hx, hy.2⟩) fun _ he => he

theorem ends_ofExcept {post : α → List E.Write → Prop} {fail : ε → Prop} {x : Except ε α}
    (hok : ∀ a, x = .ok a → post a ws) (herror : ∀ e, x = .error e → fail e) :
    E.Ends db post fail (Prog.ofExcept x : Prog I ε α) ws := by
  cases x with
  | ok a => exact hok a rfl
  | error e => exact herror e rfl

/-- A lifted program of queries reads the transaction's view. -/
theorem ends_lift {post : α → List E.Write → Prop} {fail : ε → Prop} {p : Prog I.readOnly ε α}
    (hok : ∀ a, E.read (E.view db ws) p = .ok a → post a ws)
    (herror : ∀ e, E.read (E.view db ws) p = .error e → fail e) : E.Ends db post fail p.lift ws := by
  induction p with
  | pure a => exact hok a rfl
  | throw e => exact herror e rfl
  | query q k ih =>
    refine ⟨fun row hrow => ih row (fun a ha => hok a ?_) fun e he => herror e ?_, fun e he => herror e ?_⟩
    · rw [read, hrow]; exact ha
    · rw [read, hrow]; exact he
    · rw [read, he]
  | stmt s k => exact Empty.elim s

theorem Ends.run {post : α → List E.Write → Prop} {fail : ε → Prop} {p : Prog I ε α} (h : E.Ends db post fail p ws)
    (n : Nat) : (∃ a ws', (E.run db p ws n).1 = .ok (a, ws') ∧ post a ws') ∨
      ∃ e, (E.run db p ws n).1 = .error e ∧ fail e := by
  induction p generalizing ws n with
  | pure a => exact .inl ⟨a, ws, rfl, h⟩
  | throw e => exact .inr ⟨e, rfl, h⟩
  | query q k ih =>
    simp only [Engine.run]
    cases hrow : E.answer q (E.view db ws) with
    | ok row => exact ih row (h.1 row hrow) n
    | error e => exact .inr ⟨e, rfl, h.2 e hrow⟩
  | stmt s k ih =>
    simp only [Engine.run]
    cases hx : E.exec s n (E.view db ws) with
    | ok out => exact ih out.1 ((h n).1 out.1 out.2 hx) _
    | error e => exact .inr ⟨e, rfl, (h n).2 e hx⟩

/-- A call whose reads throw. -/
theorem serve_error {call : Call I ε ρ} {w : E.World} {e : ε} (hread : E.read w.db call = .error e) :
    E.serve call w = (.error e, w) := by rw [Engine.serve, hread]

/-- A call that replies without a transaction. -/
theorem serve_reply {call : Call I ε ρ} {w : E.World} {r : ρ} (hread : E.read w.db call = .ok (.reply r)) :
    E.serve call w = (.ok r, w) := by rw [Engine.serve, hread]

/-- A call alone whose transaction is known to end: it commits, or keeps the tables and maps
the exception through `recover`. -/
theorem Ends.serve {post : ρ → List E.Write → Prop} {fail : ε → Prop} {call : Call I ε ρ} {body : Prog I ε ρ}
    {recover : ε → Except ε ρ} {w : E.World} (hread : E.read w.db call = .ok (.transaction body recover))
    (h : E.Ends w.db post fail body []) (hsettle : ∀ r ws, post r ws → E.settle (E.view w.db ws) ws = .ok ()) :
    (∃ r ws, post r ws ∧ (E.serve call w).1 = .ok r ∧ (E.serve call w).2.db = E.view w.db ws) ∨
      ∃ e, fail e ∧ (E.serve call w).1 = recover e ∧ (E.serve call w).2.db = w.db := by
  rw [Engine.serve, hread]
  simp only [transact]
  rcases h.run w.seq with ⟨r, ws, hrun, hpost⟩ | ⟨e, hrun, hfail⟩
  · refine .inl ⟨r, ws, hpost, ?_⟩
    cases hout : E.run w.db body [] w.seq with
    | mk out n =>
      rw [hout] at hrun
      obtain rfl : out = .ok (r, ws) := hrun
      simp only [hsettle r ws hpost, and_self]
  · refine .inr ⟨e, hfail, ?_⟩
    cases hout : E.run w.db body [] w.seq with
    | mk out n =>
      rw [hout] at hrun
      obtain rfl : out = .error e := hrun
      simp only [and_self]

end Sessions.Engine
