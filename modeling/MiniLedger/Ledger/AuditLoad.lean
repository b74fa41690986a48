import MiniLedger.Ledger.Audit
import MiniLedger.Ledger.Recorded

/-!
# Auditing a ledger in use

`verifyAccount` sends its three reads on the pool, each a statement of its own, so others
may commit between them. What it reports then compares the postings of one moment with the
balance row of a later one.
-/

namespace MiniLedger

open Collections Sessions

variable {sha256 : String → String} {db db' : Tables}

/-! ## Commits between two reads -/

/-- Commits of requests lead from one state of the tables to another. -/
def Moves (sha256 : String → String) (db db' : Tables) : Prop :=
  postgres.Evolves (fun call => ∃ request : Request, call = request.call sha256) db db'

/-- Every account audits clean when nobody else is at work. -/
def AtRest (sha256 : String → String) (t : Tables) : Prop :=
  ∀ u row, t.accounts.get? u = some row → AuditsClean sha256 t u

theorem Reachable.atRest {w : postgres.World} (h : Reachable sha256 (fun _ request => request.CanonicalIds) w) :
    AtRest sha256 w.db :=
  fun _ _ hrow => h.audited.auditsClean h.inOrder.1 hrow

theorem Moves.account (hm : Moves sha256 db db') {u : Uuid} {row : AccountRow} (h : db.accounts.get? u = some row) :
    db'.accounts.get? u = some row := by
  refine Engine.Evolves.invariant (motive := fun t : Tables => t.accounts.get? u = some row) hm h ?_
  rintro db _ r ws ⟨request, rfl⟩ h hc
  exact (request_commits hc).account h

/-! ## The report -/

/-- The balance and the chain head an audit takes from the row it read. -/
def recorded (state : Option BalanceRow) : Int × Option String :=
  ((state.map BalanceRow.balance).getD 0, state.bind BalanceRow.chainHash)

/-- Postings that audit clean with one balance row do so with another that says the same,
and with no other. -/
theorem report_clean_iff {account account' : Account} {rows : List PostingRow} {state state' : Option BalanceRow}
    (h : (AuditService.report sha256 account rows state).Clean) :
    ((AuditService.report sha256 account' rows state').chainValid = true ∧
      (AuditService.report sha256 account' rows state').headMatches = true ∧
      (AuditService.report sha256 account' rows state').reconciled = true) ↔ recorded state' = recorded state := by
  have hhead := h.headMatches
  have hsum := h.reconciled
  simp only [AuditService.report, decide_eq_true_eq] at hhead hsum
  simp only [AuditService.report, decide_eq_true_eq, recorded, Prod.mk.injEq]
  constructor
  · rintro ⟨-, hhead', hsum', -⟩
    exact ⟨hsum'.symm.trans hsum.1, hhead'.symm.trans hhead⟩
  · rintro ⟨hbalance, hchain⟩
    exact ⟨h.chainValid, hhead.trans hchain.symm, hsum.1.trans hbalance.symm, hbalance.trans hsum.2⟩

/-- What an audit reports when others commit between its reads. -/
theorem verifyAccount_readOver {snapshots : Nat → Tables} {text : String} {u : Uuid} {row : AccountRow}
    {account : Account} (hn : Names (snapshots 0) text u row) (hd : AccountsRepository.toDomain u row = .ok account) :
    postgres.readOver (AuditService.verifyAccount sha256 text) snapshots =
      .ok (.ok (AuditService.report sha256 account (Tables.bySeq ((snapshots 1).postingsFor u))
        ((snapshots 2).balances.get? u))) := by
  have hc := castUuid_ok.2 hn.1
  simp only [AuditService.verifyAccount, AccountsRepository.findById, AuditRepository.postingsForAccount,
    AuditRepository.accountState, Prog.ask, Prog.query_bind, Prog.pure_bind, Engine.readOver, Query.answer, hc, bind,
    Except.bind, pure, Except.pure, hn.2, Option.map_some, hd, Prog.ofExcept]

/-- **The audit under load.** On a ledger clean at each of its reads, an audit reports an
account clean if and only if the balance and the chain head on record are the same when it
reads the postings and when it reads the balance row. -/
theorem audit_underLoad_iff {snapshots : Nat → Tables} {text : String} {u : Uuid} {row : AccountRow}
    (hrest : ∀ i, AtRest sha256 (snapshots i)) (hmoves : ∀ i, Moves sha256 (snapshots i) (snapshots (i + 1)))
    (hnames : Names (snapshots 0) text u row) :
    ∃ report, postgres.readOver (AuditService.verifyAccount sha256 text) snapshots = .ok (.ok report) ∧
      ((report.chainValid = true ∧ report.headMatches = true ∧ report.reconciled = true) ↔
        recorded ((snapshots 2).balances.get? u) = recorded ((snapshots 1).balances.get? u)) := by
  obtain ⟨_, hread, -⟩ := (hrest 0 u row hnames.2).1 text hnames.1
  obtain ⟨account, hd, -⟩ := verifyAccount_account hnames hread
  have hnames₁ : Names (snapshots 1) text u row := ⟨hnames.1, (hmoves 0).account hnames.2⟩
  obtain ⟨_, hread₁, clean⟩ := (hrest 1 u row hnames₁.2).1 text hnames.1
  obtain ⟨account', -, rfl⟩ := verifyAccount_account hnames₁ hread₁
  exact ⟨_, verifyAccount_readOver hnames hd, report_clean_iff clean⟩

/-! ## Runs on fixed inputs -/

namespace Sample

theorem atRest_openedWorld : AtRest (digest fundingDigests) openedWorld.db :=
  Reachable.atRest ⟨worldIds, 0, entrySize, .step openAlice .refl trivial⟩

theorem atRest_fundedWorld : AtRest (digest fundingDigests) fundedWorld.db := by
  have canonical : fundAlice.CanonicalIds := (by decide : Canonical usd.text ∧ Canonical alice.text)
  exact Reachable.atRest ⟨worldIds, 0, entrySize, .step fundAlice (.step openAlice .refl trivial) canonical⟩

theorem moves_deposit : Moves (digest fundingDigests) openedWorld.db fundedWorld.db := by
  rcases postgres.serve_cases (fundAlice.call (digest fundingDigests)) openedWorld with h | ⟨r, ws, -, hc, h⟩
  · have hposts : Posts openedWorld.db (postgres.serve (fundAlice.call (digest fundingDigests)) openedWorld).2.db :=
      deposit_posts
    rw [h] at hposts
    exact absurd hposts (not_posts_self _)
  · have hdb : fundedWorld.db = postgres.view openedWorld.db ws := h
    rw [hdb]
    exact .commit _ r ws .refl ⟨fundAlice, rfl⟩ hc

/-- The deposit commits when the audit has made `n` of its reads. -/
def depositAfter (n i : Nat) : Tables := if i < n then openedWorld.db else fundedWorld.db

theorem atRest_depositAfter (n i : Nat) : AtRest (digest fundingDigests) (depositAfter n i) := by
  unfold depositAfter
  split
  · exact atRest_openedWorld
  · exact atRest_fundedWorld

theorem moves_depositAfter (n i : Nat) :
    Moves (digest fundingDigests) (depositAfter n i) (depositAfter n (i + 1)) := by
  unfold depositAfter
  split
  · split
    · exact .refl
    · exact moves_deposit
  · rw [if_neg (by omega)]
    exact .refl

end Sample

/-- A deposit that commits before the audit reads the postings does no harm. -/
theorem audit_underLoad_deposit :
    ∃ report, postgres.readOver (AuditService.verifyAccount (Sample.digest Sample.fundingDigests) Sample.alice.text)
        (Sample.depositAfter 1) = .ok (.ok report) ∧
      report.chainValid = true ∧ report.headMatches = true ∧ report.reconciled = true := by
  have named : Names (Sample.depositAfter 1 0) Sample.alice.text Sample.alice
      ⟨.user, "USD", some 0, none, some "alice", 0⟩ :=
    ⟨Sample.alice.parse?_text, by decide +kernel⟩
  obtain ⟨report, hread, clean⟩ :=
    audit_underLoad_iff (Sample.atRest_depositAfter 1) (Sample.moves_depositAfter 1) named
  exact ⟨report, hread, clean.2 rfl⟩

/-- One that commits between the postings and the balance row raises the alarm: every
account is clean at every moment, yet the report matches neither chain head nor balance. -/
theorem audit_alarmed_by_deposit :
    (∀ i, AtRest (Sample.digest Sample.fundingDigests) (Sample.depositAfter 2 i)) ∧
      (∀ i, Moves (Sample.digest Sample.fundingDigests) (Sample.depositAfter 2 i) (Sample.depositAfter 2 (i + 1))) ∧
      ∃ report, postgres.readOver (AuditService.verifyAccount (Sample.digest Sample.fundingDigests) Sample.alice.text)
          (Sample.depositAfter 2) = .ok (.ok report) ∧ report.headMatches = false ∧ report.reconciled = false := by
  refine ⟨Sample.atRest_depositAfter 2, Sample.moves_depositAfter 2, ?_⟩
  have h : (match postgres.readOver (AuditService.verifyAccount (Sample.digest Sample.fundingDigests)
      Sample.alice.text) (Sample.depositAfter 2) with
    | .ok (.ok report) => !report.headMatches && !report.reconciled
    | _ => false) = true := by decide +kernel
  split at h
  · rename_i report hread
    simp only [Bool.and_eq_true, Bool.not_eq_true'] at h
    exact ⟨report, hread, h⟩
  · cases h

end MiniLedger
