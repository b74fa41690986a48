import MiniLedger.Ledger.Disciplined
import MiniLedger.Ledger.Runs

/-!
# Deadlocks

`lockForUpdate` sorts the id texts it is given, the database locks the rows they name. As
long as the texts of every transfer sort as the ids do, all transactions take their rows in
one order and none waits for itself; two spellings that sort apart are enough for a cycle.
-/

namespace MiniLedger

open Sessions

variable {sha256 : String → String}

/-- Such a request locks in ascending order. -/
theorem request_ascending {request : Request} (h : request.SortAlike) :
    (Rules.ascending postgres rank).Admits (request.call sha256) := by
  have admits : (ledgerRules True).Admits (request.call sha256) := request_admits request fun _ => h
  refine admits.mono fun plan hplan body recover hp => ?_
  exact (hplan body recover hp).weaken (fun _ _ => trivial) fun _ _ hsend => hsend.2 trivial

/-- **No deadlock.** In every interleaving of requests whose id texts sort as their ids, no
transaction waits, through others, for itself. -/
theorem reaches_deadlockFree {ι : Type} [DecidableEq ι] [Fintype ι] {requests : ι → Request} {w : postgres.World}
    {c : Config postgres ι Reply} (halike : ∀ i, (requests i).SortAlike)
    (h : Reaches (Config.start w fun i => (requests i).call sha256) c) (i : ι) :
    ¬ Relation.TransGen c.Waits i i := by
  have hkeeps := h.keeps (R := Rules.ascending postgres rank) fun i => request_ascending (halike i)
  exact Config.acyclic_waits h.exclusive hkeeps i

/-! ## Runs on fixed inputs -/

namespace Sample

def crossingDigests : List (String × String) :=
  [("|".intercalate ["alice", alice.text, bobUpper, "5", "USD"],
      "a558ad5ae4aabebff518b15a73808e658f4b47cbac6d36f9e4feb5714924dfde"),
    ("|".intercalate ["alice", alice.text, bob.text, "5", "USD"],
      "5d52c5ea56862f9aeb3ee153a03f7cb832ed4094324fcc58277d60dfbfd43d70"),
    ("|".intercalate ["bob", bob.text, alice.text, "5", "USD"],
      "42df9f2df72fed9af1e0b760ed57592a3f11bd9da2e3a38a7a9a433289e7db6e")]

def twoAccounts : postgres.World := after crossingDigests [openAlice, openBob]

/-- Alice pays Bob twice at once, the first time spelling his id in upper case. -/
def crossing : Fin 2 → Request
  | 0 => .transfer (pay alice.text bobUpper "5" "alice") deposit
  | 1 => .transfer (pay alice.text bob.text "5" "alice") second

/-- Alice pays Bob while he pays her. -/
def opposing : Fin 2 → Request
  | 0 => .transfer (pay alice.text bob.text "5" "alice") deposit
  | 1 => .transfer (pay bob.text alice.text "5" "bob") second

/-- The first transfer begins, reads both accounts and locks a row; the second begins and
reads them too. -/
def firstLocks : List (Act postgres (Fin 2)) :=
  List.replicate 4 (.advance one) ++ List.replicate 3 (.advance other)

end Sample

/-- Each then waits for the other. -/
theorem crossing_deadlocks : ∃ c : Config postgres (Fin 2) Reply,
    Reachable (Sample.digest Sample.crossingDigests) admitted Sample.twoAccounts ∧
      (∀ i, (Sample.crossing i).Admitted) ∧
      Reaches (Config.start Sample.twoAccounts fun i => (Sample.crossing i).call (Sample.digest Sample.crossingDigests)) c ∧
      Relation.TransGen c.Waits 0 0 := by
  have h : ((Config.start Sample.twoAccounts fun i =>
      (Sample.crossing i).call (Sample.digest Sample.crossingDigests)).play (Sample.firstLocks ++ [.advance 1])).any
      (fun c => decide (c.Waits 0 1 ∧ c.Waits 1 0)) = true := by decide +kernel
  obtain ⟨c, hplay, hwaits⟩ := (Option.any_eq_true _ _).1 h
  obtain ⟨h₀₁, h₁₀⟩ := of_decide_eq_true hwaits
  exact ⟨c, Sample.reachable_after (by decide), by decide, Reaches.of_play (.refl _) hplay, .tail (.single h₀₁) h₁₀⟩

/-- Opposing transfers under canonical ids: the second waits for the first, not the other
way round. -/
theorem opposing_deadlockFree : ∃ c : Config postgres (Fin 2) Reply,
    (Config.start Sample.twoAccounts fun i =>
      (Sample.opposing i).call (Sample.digest Sample.crossingDigests)).play Sample.firstLocks = some c ∧
    c.Waits 1 0 ∧ ¬ Relation.TransGen c.Waits 0 0 := by
  have h : ((Config.start Sample.twoAccounts fun i =>
      (Sample.opposing i).call (Sample.digest Sample.crossingDigests)).play Sample.firstLocks).any
      (fun c => decide (c.Waits 1 0)) = true := by decide +kernel
  obtain ⟨c, hplay, hwaits⟩ := (Option.any_eq_true _ _).1 h
  have halike : ∀ i, (Sample.opposing i).SortAlike := by decide +kernel
  exact ⟨c, hplay, of_decide_eq_true hwaits, reaches_deadlockFree halike (Reaches.of_play (.refl _) hplay) 0⟩

end MiniLedger
