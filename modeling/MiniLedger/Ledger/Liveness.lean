import MiniLedger.Ledger.Deadlock
import MiniLedger.Sessions.Progress

/-!
# Every call is answered

Requests whose id texts sort as their ids cannot deadlock, so nothing keeps a call from its
answer: whichever session is moved next, all of them are done after finitely many events.
-/

namespace MiniLedger

open Sessions

variable {sha256 : String → String}

/-- **Every call is answered.** No interleaving of such requests goes on for ever, and one
that cannot be continued has answered all of them. -/
theorem calls_answered {ι : Type} [DecidableEq ι] [Fintype ι] {requests : ι → Request} {w : postgres.World}
    (halike : ∀ i, (requests i).SortAlike) :
    (∀ run : ℕ → Config postgres ι Reply, run 0 = Config.start w (fun i => (requests i).call sha256) →
      ¬ ∀ n, (run (n + 1)).After (run n)) ∧
    ∀ c, Reaches (Config.start w fun i => (requests i).call sha256) c → (∀ i, c.advance i = none) →
      ∀ i, ∃ x, c.phase i = .done x := by
  refine ⟨fun run _ => Config.no_endless run, fun c h hstuck => ?_⟩
  obtain hdone | ⟨i, hcycle⟩ := Config.stuck hstuck
  · exact hdone
  · have hkeeps := h.keeps (R := Rules.ascending postgres rank) fun i => request_ascending (halike i)
    exact absurd hcycle (Config.acyclic_waits h.exclusive hkeeps i)

/-- Opposing transfers are both answered. -/
theorem calls_answered_opposing : ∃ c, Reaches (Config.start Sample.twoAccounts fun i =>
      (Sample.opposing i).call (Sample.digest Sample.crossingDigests)) c ∧ ∀ i, ∃ x, c.phase i = .done x := by
  have halike : ∀ i, (Sample.opposing i).SortAlike := by decide +kernel
  obtain ⟨c, hc, hstuck⟩ := Config.finishes (Config.start Sample.twoAccounts fun i =>
    (Sample.opposing i).call (Sample.digest Sample.crossingDigests))
  exact ⟨c, hc, (calls_answered halike).2 c hc hstuck⟩

end MiniLedger
