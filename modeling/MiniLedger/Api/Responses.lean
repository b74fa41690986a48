import MiniLedger.Api.Boundary

/-!
# What a status tells

A caller sees a status, not the tables. On the routes that write it can be relied on: `201`
says that the transaction was committed, once, and any other status that nothing of it was.
-/

namespace MiniLedger.Api

open Collections Sessions

variable {sha256 : String → String} {later db : Tables} {request : Request} {r : Reply} {ws : List Write}

/-! ## One response -/

/-- The statuses of the `PROBLEMS` tables. -/
def problemStatuses : List Nat := [403, 404, 409, 422]

/-- A refusal is told as a problem. -/
theorem respond_of_refused (h : r.Refused) (later : Tables) :
    ∃ problem, respond later (.ok r) = catch_ problem ∧ problem.status ∈ problemStatuses := by
  cases r with
  | opened result =>
    cases result with
    | ok => exact h.elim
    | error e =>
      cases e
      exact ⟨_, rfl, by decide⟩
  | transferred result =>
    cases result with
    | ok => exact h.elim
    | error e =>
      refine ⟨_, rfl, ?_⟩
      show (TransfersController.problems e).1 ∈ problemStatuses
      cases e <;> decide
  | reversed result =>
    cases result with
    | ok => exact h.elim
    | error e =>
      refine ⟨_, rfl, ?_⟩
      show (ReversalsController.problems e).1 ∈ problemStatuses
      cases e <;> decide

/-- What was committed is answered as created. -/
theorem respond_of_committed (h : Committed sha256 db request r ws) (later : Tables) :
    (respond later (.ok r)).status = 201 := by
  cases h with
  | @opened input id =>
    have hid : castUuid id.text = .ok id := castUuid_ok.2 id.parse?_text
    have hread : postgres.read later (AccountsService.balanceOf ⟨id.text⟩) = .ok (later.storedBalance id) := by
      simp only [AccountsService.balanceOf, AccountBalancesRepository.find, Prog.ask, Prog.query_bind, Prog.pure_bind,
        Engine.read, Query.answer, hid, bind, Except.bind, pure, Except.pure]
      rfl
    simp only [respond, Account.openUser, hread]
    rfl
  | replayed => rfl
  | transferred => rfl
  | reversed => rfl

/-! ## Many at once -/

section

variable {ι : Type} [DecidableEq ι] [Fintype ι] {requests : ι → Request} {w : postgres.World} {c : Config postgres ι Reply}
  {P : Tables → Request → Prop}

omit [DecidableEq ι] [Fintype ι] in
/-- The log is all that happened to the tables. -/
theorem chronicle_view {calls : ι → Call sql Failure Reply} {start : Tables} {log : List (Commit postgres ι Reply)}
    (h : Chronicle postgres calls start log db) : db = postgres.view start (log.flatMap Commit.writes) := by
  induction h with
  | nil => rfl
  | snoc e _ _ ih => rw [List.flatMap_append, List.flatMap_singleton, postgres.view_append, ← ih]

omit [Fintype ι] in
/-- A session in the log stands there once. -/
theorem filter_session {log : List (Commit postgres ι Reply)} (hn : (log.map Commit.session).Nodup)
    {e : Commit postgres ι Reply} (he : e ∈ log) : log.filter (fun e' => e'.session = e.session) = [e] := by
  have hmem : e ∈ log.filter fun e' => e'.session = e.session := List.mem_filter.2 ⟨he, decide_eq_true rfl⟩
  have hone : (log.filter fun e' => e'.session = e.session).length = 1 :=
    Nat.le_antisymm (length_filter_le_one hn e.session) (List.length_pos_of_mem hmem)
  obtain ⟨e', heq⟩ := List.length_eq_one_iff.1 hone
  rw [heq] at hmem ⊢
  rw [List.mem_singleton.1 hmem]

/-- **A status can be relied on.** Whatever the interleaving, the committed tables are those
of the start with the writes of the log on them. A call that is done is answered `201` if it
is in the log, where it stands once with the reply answered; else it is answered one of the
problems or as an internal error, and nothing of it is in the log.

The runs have no lost connections: a read outside a transaction is always answered, and who
commits learns of it. -/
theorem run_responses (hw : Reachable sha256 P w) (h : Reaches (Config.start w fun i => (requests i).call sha256) c) :
    c.db = postgres.view w.db (c.log.flatMap Commit.writes) ∧
      ∀ i x later, c.phase i = .done x →
        ((respond later x).status = 201 ∧ ∃ e, c.log.filter (fun e => e.session = i) = [e] ∧ x = .ok e.reply) ∨
        ((respond later x = internalError ∨ ∃ problem, respond later x = catch_ problem ∧ problem.status ∈ problemStatuses) ∧
          ∀ e ∈ c.log, e.session ≠ i) := by
  have hlog := h.chronicle (D := discipline) hw.sound fun _ => request_disciplined _
  obtain ⟨houtcome, hnodup⟩ := h.outcome fun i => @request_otherwise sha256 (requests i)
  have hcommitted := hlog.entries (motive := fun _ => True)
    (Q := fun (e : Commit postgres ι Reply) _ => ∃ db, Committed sha256 db (requests e.session) e.reply e.writes) trivial
    (fun _ _ => trivial) (fun _ hc => ⟨_, request_commits hc⟩) fun _ hq _ => hq
  refine ⟨chronicle_view hlog, fun i x later hdone => ?_⟩
  have hi := houtcome i
  rw [hdone] at hi
  obtain ⟨hrefused, hnone⟩ | ⟨e, he, hsession, rfl⟩ := hi
  · refine .inr ⟨?_, hnone⟩
    cases x with
    | error e => exact .inl rfl
    | ok r => exact .inr (respond_of_refused (hrefused r rfl) later)
  · obtain ⟨db, hc⟩ := hcommitted e he
    exact .inl ⟨respond_of_committed hc later, e, hsession ▸ filter_session hnodup he, rfl⟩

end

/-- Two deposits at once, both answered. -/
theorem run_responses_deposits : ∃ c : Config postgres (Fin 2) Reply,
    (Config.start Sample.emptyAccounts fun i =>
      (Sample.twoDeposits i).call (Sample.digest Sample.twoDepositsDigests)).play Sample.overlapping = some c ∧
    ∀ i, ∃ x, c.phase i = .done x ∧
      (((respond c.db x).status = 201 ∧ ∃ e, c.log.filter (fun e => e.session = i) = [e] ∧ x = .ok e.reply) ∨
        ((respond c.db x = internalError ∨
            ∃ problem, respond c.db x = catch_ problem ∧ problem.status ∈ problemStatuses) ∧
          ∀ e ∈ c.log, e.session ≠ i)) := by
  obtain ⟨c, hplay, hdone⟩ := Sample.overlapping_done
  refine ⟨c, hplay, fun i => ?_⟩
  obtain ⟨x, hx⟩ := hdone i
  exact ⟨x, hx, (run_responses Sample.deposits_proper.1 (Reaches.of_play (.refl _) hplay)).2 i x c.db hx⟩

end MiniLedger.Api
