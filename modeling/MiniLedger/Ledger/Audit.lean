import MiniLedger.Ledger.Booked
import MiniLedger.Ledger.Sequence

/-!
# Auditing an account

The postings of an account are a trail from nothing to its balance row (`Audited`), and an
audit of a trail finds nothing wrong. A booking extends the trail as long as the id texts
it hashed are the ones the database gives back.
-/

namespace MiniLedger

open Collections Sessions

variable {sha256 : String → String} {db db' : Tables} {w : postgres.World}

/-! ## The report -/

/-- Nothing to report. -/
structure AccountAuditReport.Clean (report : AccountAuditReport) : Prop where
  chainValid : report.chainValid = true
  headMatches : report.headMatches = true
  reconciled : report.reconciled = true
  brokenAtSeq : report.brokenAtSeq = none

theorem foldl_amounts (rows : List PostingRow) (start : Int) :
    rows.foldl (fun total posting => total + posting.amount) start = start + (rows.map PostingRow.amount).sum := by
  induction rows generalizing start with
  | nil => simp
  | cons p ps ih => rw [List.foldl_cons, ih, List.map_cons, List.sum_cons, Int.add_assoc]

/-- The rows lead from an empty account to `balance` and `chainHash`. -/
def RowTrail (sha256 : String → String) (rows : List PostingRow) (balance : Int) (chainHash : Option String) : Prop :=
  Trail sha256 0 none (rows.map AuditService.chainEntry) balance chainHash

theorem RowTrail.sum {rows : List PostingRow} {balance : Int} {chainHash : Option String}
    (h : RowTrail sha256 rows balance chainHash) : balance = (rows.map PostingRow.amount).sum := by
  have hsum := Trail.sum h
  rw [List.map_map, Int.zero_add] at hsum
  exact hsum

theorem RowTrail.balanceAfter {rows : List PostingRow} {balance : Int} {chainHash : Option String}
    (h : RowTrail sha256 rows balance chainHash) {i : Nat} (hi : i < rows.length) :
    rows[i].balanceAfter = ((rows.take (i + 1)).map PostingRow.amount).sum := by
  have hb := Trail.balanceAfter h (i := i) (by simpa using hi)
  rw [List.getElem_map, ← List.map_take, List.map_map, Int.zero_add] at hb
  exact hb

/-- An audit of a trail and of the row it leads to finds nothing. -/
theorem report_clean {account : Account} {rows : List PostingRow} {state : BalanceRow}
    (h : RowTrail sha256 rows state.balance state.chainHash) :
    (AuditService.report sha256 account rows (some state)).Clean := by
  have hverify : verifyChain sha256 (rows.map AuditService.chainEntry) = ⟨true, none⟩ := Trail.verifyFrom h
  obtain ⟨hhead, hlast⟩ := Trail.last_eq h
  rw [List.getLast?_map, Option.map_map, Option.or_none] at hhead
  rw [List.getLast?_map, Option.map_map] at hlast
  have hsum := h.sum
  exact {
    chainValid := by simp [AuditService.report, hverify]
    headMatches := by
      simp only [AuditService.report, Option.bind_some, decide_eq_true_eq]
      exact hhead.symm
    reconciled := by
      simp only [AuditService.report, Option.map_some, Option.getD_some, decide_eq_true_eq, foldl_amounts, Int.zero_add]
      exact ⟨hsum.symm, hlast⟩
    brokenAtSeq := by simp [AuditService.report, hverify] }

/-- What `verifyAccount` reads and answers. -/
theorem verifyAccount_read {text : String} {u : Uuid} {row : AccountRow} {account : Account}
    (hn : Names db text u row) (hd : AccountsRepository.toDomain u row = .ok account) :
    postgres.read db (AuditService.verifyAccount sha256 text) =
      .ok (.ok (AuditService.report sha256 account (Tables.bySeq (db.postingsFor u)) (db.balances.get? u))) := by
  have hc := castUuid_ok.2 hn.1
  simp only [AuditService.verifyAccount, AccountsRepository.findById, AuditRepository.postingsForAccount,
    AuditRepository.accountState, Prog.ask, Prog.query_bind, Prog.pure_bind,
    Sessions.Engine.read, Query.answer, hc, bind, Except.bind, pure, Except.pure, hn.2, Option.map_some, hd,
    Prog.ofExcept]

/-- An audit that reports has read the account. -/
theorem verifyAccount_account {text : String} {u : Uuid} {row : AccountRow} {report : AccountAuditReport}
    (hn : Names db text u row) (h : postgres.read db (AuditService.verifyAccount sha256 text) = .ok (.ok report)) :
    ∃ a, AccountsRepository.toDomain u row = .ok a ∧
      report = AuditService.report sha256 a (Tables.bySeq (db.postingsFor u)) (db.balances.get? u) := by
  cases hd : AccountsRepository.toDomain u row with
  | ok a =>
    rw [verifyAccount_read hn hd] at h
    cases h
    exact ⟨a, rfl, rfl⟩
  | error e =>
    have hc := castUuid_ok.2 hn.1
    simp only [AuditService.verifyAccount, AccountsRepository.findById, Prog.ask, Prog.query_bind, Prog.pure_bind,
      Engine.read, Query.answer, hc, bind, Except.bind, pure, Except.pure, hn.2, Option.map_some, hd,
      Prog.ofExcept, Prog.throw_bind] at h
    cases h

/-! ## The invariant -/

/-- Every account has a balance row its postings lead to, and a currency to audit it in. -/
structure Audited (sha256 : String → String) (t : Tables) : Prop where
  supported : ∀ u row, t.accounts.get? u = some row → ∃ currency, Currency.of row.currency = .ok currency
  trail : ∀ u row, t.accounts.get? u = some row →
    ∃ s, t.balances.get? u = some s ∧ RowTrail sha256 (t.postingsFor u) s.balance s.chainHash
  known : ∀ p ∈ t.postings, ∃ row, t.accounts.get? p.accountId = some row

/-- The rows of one account, stored under the id texts that were hashed. -/
theorem rows_entries {values : List PostingValues} {rows : List PostingRow} (h : List.Forall₂ Stored values rows)
    (hc : ∀ v ∈ values, Canonical v.transactionId ∧ Canonical v.accountId) (u : Uuid) :
    (rows.filter fun p => p.accountId = u).map AuditService.chainEntry =
      (values.filter fun v => v.accountId = u.text).map LedgerPoster.valuesEntry := by
  induction h with
  | nil => rfl
  | @cons v p vs ps hv _ ih =>
    rw [List.forall_mem_cons] at hc
    have ih := ih hc.2
    obtain ⟨htid, haid, hamount, hbalance, hprev, hhash⟩ := hv
    have htext := Uuid.text_of_canonical hc.1.2 haid
    have hiff : p.accountId = u ↔ v.accountId = u.text :=
      ⟨fun h => h ▸ htext.symm, fun h => Uuid.ext (htext.trans h)⟩
    by_cases hu : p.accountId = u
    · have hentry : AuditService.chainEntry p = LedgerPoster.valuesEntry v := by
        rw [AuditService.chainEntry, LedgerPoster.valuesEntry, Uuid.text_of_canonical hc.1.1 htid, htext, hamount,
          hbalance, hprev, hhash]
      rw [List.filter_cons_of_pos (by simpa using hu), List.filter_cons_of_pos (by simpa using hiff.1 hu),
        List.map_cons, List.map_cons, hentry, ih]
    · rw [List.filter_cons_of_neg (by simpa using hu), List.filter_cons_of_neg (by simpa using fun h => hu (hiff.2 h)), ih]

theorem Audited.booked {journal : JournalTransaction} {currency : Currency} {options : PostOptions} {b : Booking}
    (h : Audited sha256 db) (hv : b.Valid sha256 db journal currency options) (hb : Booked db db' b)
    (hid : Canonical journal.id) (hc : ∀ p ∈ journal.postings, Canonical p.accountId.value) : Audited sha256 db' where
  supported u row hrow := h.supported u row (hb.accounts ▸ hrow)
  known p hp := by
    rw [hb.postings, List.mem_append] at hp
    rw [hb.accounts]
    rcases hp with hp | hp
    · exact h.known p hp
    · obtain ⟨-, q, hq, hu, -⟩ := hv.row_leg hp
      obtain ⟨u, row, _, ⟨hu', hrow⟩, -⟩ := hv.account q hq
      obtain rfl : u = p.accountId := Option.some.inj (hu'.symm.trans hu)
      exact ⟨row, hrow⟩
  trail u row hrow := by
    obtain ⟨s, hs, trail⟩ := h.trail u row (hb.accounts ▸ hrow)
    have hpostings : db'.postingsFor u = db.postingsFor u ++ b.rows.filter fun p => p.accountId = u := by
      rw [Tables.postingsFor, hb.postings, List.filter_append]; rfl
    rw [hpostings]
    by_cases hleg : ∃ p ∈ journal.postings, Uuid.parse? p.accountId.value = some u
    · obtain ⟨p, hp, hu⟩ := hleg
      obtain ⟨s₀, s', hs₀, hlock, hrun, hs'⟩ := hb.touched hv (oneSpelling_of_canonical hc) hp hu
      obtain rfl : s = s₀ := Option.some.inj (hs.symm.trans hs₀)
      obtain ⟨s'', hs'', legs⟩ := LedgerPoster.postLegs_trail hv.legs hlock
      obtain rfl : s' = s'' := Option.some.inj (hrun.symm.trans hs'')
      refine ⟨s', hs', ?_⟩
      rw [RowTrail, List.map_append, rows_entries hv.rows]
      · rw [← Uuid.text_of_canonical (hc p hp) hu] at legs
        exact trail.append legs
      · intro v hm
        obtain ⟨q, hq, _, -, rfl⟩ := exists_of_mem_zipWith hm
        exact ⟨hid, hc q hq⟩
    · have hnone : (b.rows.filter fun p => p.accountId = u) = [] := by
        refine List.filter_eq_nil_iff.2 fun p hp hu => hleg ?_
        obtain ⟨-, q, hq, hqu, -⟩ := hv.row_leg hp
        exact ⟨q, hq, by rw [hqu, of_decide_eq_true hu]⟩
      rw [hb.untouched hv fun p hp hu => hleg ⟨p, hp, hu⟩, hnone, List.append_nil]
      exact ⟨s, hs, trail⟩

/-- Both ids of a transfer are sent as the database prints them. -/
def Request.CanonicalIds : Request → Prop
  | .transfer input _ => Canonical input.from_ ∧ Canonical input.to_
  | _ => True

theorem Audited.commit {request : Request} {r : Reply} {ws : List Write} (hp : request.CanonicalIds)
    (h : Audited sha256 db) (hc : Committed sha256 db request r ws) : Audited sha256 (postgres.view db ws) := by
  cases hc with
  | replayed => exact h
  | transferred currency amount journal b hch hv =>
    refine h.booked hv (booked_transfer ..) (hch.journal_id ▸ Uuid.canonical_text _) ?_
    rw [hch.postings]
    intro p hmem
    rcases List.mem_pair.1 hmem with rfl | rfl
    · exact hp.1
    · exact hp.2
  | reversed target original currency journal b _ _ hcomp _ hv =>
    exact h.booked hv (booked_writes ..) (hcomp.journal_id ▸ Uuid.canonical_text _) hcomp.canonical
  | @opened input id now currency code hsupported hcode hnone _ =>
    rw [view_opened]
    have hnew : db.postingsFor id = [] := by
      refine List.filter_eq_nil_iff.2 fun p hp hu => ?_
      obtain ⟨row, hrow⟩ := h.known p hp
      rw [of_decide_eq_true hu, hnone] at hrow
      cases hrow
    refine ⟨fun u row hrow => ?_, fun u row hrow => ?_, fun p hp => ?_⟩
    · by_cases hu : u = id
      · subst hu
        rw [Keyed.get?_set_self] at hrow
        cases hrow
        rcases Currency.of_cases hsupported with ⟨hm, hcode'⟩ | ⟨-, hcode'⟩
        · obtain ⟨c, hc, -⟩ := Currency.of_supported hm
          cases hcode.symm.trans hcode'
          exact ⟨c, hc⟩
        · cases hcode.symm.trans hcode'
      · exact h.supported u row ((Keyed.get?_set_of_ne _ _ hu).symm.trans hrow)
    · by_cases hu : u = id
      · subst hu
        refine ⟨⟨0, none⟩, Keyed.get?_set_self .., ?_⟩
        change Trail sha256 0 none ((db.postingsFor u).map _) 0 none
        rw [hnew]
        exact ⟨rfl, rfl⟩
      · obtain ⟨s, hs, trail⟩ := h.trail u row ((Keyed.get?_set_of_ne _ _ hu).symm.trans hrow)
        exact ⟨s, (Keyed.get?_set_of_ne _ _ hu).trans hs, trail⟩
    · obtain ⟨row, hrow⟩ := h.known p hp
      by_cases hu : p.accountId = id
      · exact ⟨_, by rw [hu]; exact Keyed.get?_set_self ..⟩
      · exact ⟨row, (Keyed.get?_set_of_ne _ _ hu).trans hrow⟩

theorem audited_migrated (ids : WorldIds) (createdAt : Nat) (entrySize : String → Nat) : Audited sha256 (migrated ids createdAt entrySize).db where
  supported u row hrow := by
    obtain ⟨code, hcode, rfl, -⟩ := migrated_account hrow
    obtain ⟨c, hc, -⟩ := Currency.of_supported hcode
    exact ⟨c, hc⟩
  known p hp := by simp [migrated] at hp
  trail u row hrow := by
    obtain ⟨_, -, -, hs⟩ := migrated_account hrow
    exact ⟨⟨0, none⟩, hs, rfl, rfl⟩

/-! ## An audit at rest -/

/-- What the auditor finds for an account, however its id is spelled: nothing to report,
and in `seq` order each posting with the sum of the amounts up to it. -/
def AuditsClean (sha256 : String → String) (t : Tables) (u : Uuid) : Prop :=
  (∀ text, Uuid.parse? text = some u →
    ∃ report, postgres.read t (AuditService.verifyAccount sha256 text) = .ok (.ok report) ∧ report.Clean) ∧
    ∀ i (hi : i < (Tables.bySeq (t.postingsFor u)).length), (Tables.bySeq (t.postingsFor u))[i].balanceAfter =
      (((Tables.bySeq (t.postingsFor u)).take (i + 1)).map PostingRow.amount).sum

theorem Audited.auditsClean (h : Audited sha256 db) (hasc : Ascending db.postings) {u : Uuid} {row : AccountRow}
    (hrow : db.accounts.get? u = some row) : AuditsClean sha256 db u := by
  have horder : Tables.bySeq (db.postingsFor u) = db.postingsFor u :=
    bySeq_of_ascending (hasc.sublist List.filter_sublist)
  obtain ⟨currency, hc⟩ := h.supported u row hrow
  obtain ⟨s, hs, trail⟩ := h.trail u row hrow
  have hd : ∃ a, AccountsRepository.toDomain u row = .ok a := ⟨_, by rw [AccountsRepository.toDomain, hc]⟩
  obtain ⟨a, ha⟩ := hd
  rw [AuditsClean, horder]
  refine ⟨fun text htext => ?_, fun i hi => trail.balanceAfter hi⟩
  have hread : postgres.read db (AuditService.verifyAccount sha256 text) = _ := verifyAccount_read ⟨htext, hrow⟩ ha
  rw [horder, hs] at hread
  exact ⟨_, hread, report_clean trail⟩

/-- Runs of canonical ids keep the ledger audited. -/
theorem Reachable.audited (h : Reachable sha256 (fun _ request => request.CanonicalIds) w) : Audited sha256 w.db := by
  obtain ⟨ids, createdAt, entrySize, hs⟩ := h
  exact hs.invariant (audited_migrated ids createdAt entrySize) fun hp hi hc => hi.commit hp hc

/-- **An untampered ledger audits clean.** In every run whose transfers send both ids as
the database prints them, the audit of every account finds nothing. -/
theorem reachable_auditsClean (h : Reachable sha256 (fun _ request => request.CanonicalIds) w) :
    ∀ u row, w.db.accounts.get? u = some row → AuditsClean sha256 w.db u :=
  fun _ _ hrow => h.audited.auditsClean h.inOrder.1 hrow

/-- The rule covers the deposit that funds an account. -/
theorem reachable_auditsClean_deposit : AuditsClean (Sample.digest Sample.fundingDigests)
    (Sample.after Sample.fundingDigests [Sample.openAlice, Sample.fundAlice]).db Sample.alice := by
  have canonical : Sample.fundAlice.CanonicalIds :=
    (by decide : Canonical Sample.usd.text ∧ Canonical Sample.alice.text)
  have run : Reachable (Sample.digest Sample.fundingDigests) (fun _ request => request.CanonicalIds)
      (Sample.after Sample.fundingDigests [Sample.openAlice, Sample.fundAlice]) :=
    ⟨Sample.worldIds, 0, Sample.entrySize, .step Sample.fundAlice (.step Sample.openAlice .refl trivial) canonical⟩
  exact reachable_auditsClean run Sample.alice ⟨.user, "USD", some 0, none, some "alice", 0⟩ (by decide +kernel)

/-! ## A run on fixed inputs -/

namespace Sample

def upperCaseDigests : List (String × String) :=
  fundingDigests ++
    [("|".intercalate ["alice", usd.text, aliceUpper, "100", "USD"],
        "9314496f8f60f97a5231fb5296d72af7d4d6f8dc8f71db4bfee052bdedf58f5d"),
      ("|".intercalate ["", deposit.text, aliceUpper, "100", "100"],
        "fd30d15fdef858f40b463cddf0d293d18a8d91a447d78bed65f7fdb30b795a9b")]

/-- Alice's first hundred, sent to her id in upper case. -/
def upperCaseWorld : postgres.World :=
  after upperCaseDigests [openAlice, .transfer (pay usd.text aliceUpper "100" "alice") deposit]

end Sample

/-- The chain of her account does not verify: it was hashed over the other spelling. -/
theorem not_auditsClean_upperCase :
    Reachable (Sample.digest Sample.upperCaseDigests) admitted Sample.upperCaseWorld ∧
      (Sample.upperCaseWorld.db.accounts.get? Sample.alice).isSome ∧
      ¬ AuditsClean (Sample.digest Sample.upperCaseDigests) Sample.upperCaseWorld.db Sample.alice := by
  have h : (Sample.upperCaseWorld.db.accounts.get? Sample.alice).isSome ∧
      (match postgres.read Sample.upperCaseWorld.db
          (AuditService.verifyAccount (Sample.digest Sample.upperCaseDigests) Sample.alice.text) with
        | .ok (.ok report) => report.chainValid
        | _ => false) = false := by decide +kernel
  refine ⟨Sample.reachable_after (by decide), h.1, ?_⟩
  rintro ⟨hreport, -⟩
  obtain ⟨report, hread, clean⟩ := hreport Sample.alice.text Sample.alice.parse?_text
  have hvalid := h.2
  rw [hread] at hvalid
  exact Bool.noConfusion (clean.chainValid.symm.trans hvalid)

end MiniLedger
