import MiniLedger.Ledger.Recorded

/-!
# How a reversal ends

On the tables of a run the stored legs of a transaction can always be negated into a
journal, its accounts can be read and locked, and no owner is asked for. What a reversal
alone can still end in is one of its results or an error of the database.
-/

namespace MiniLedger

open Collections Sessions

variable {sha256 : String → String} {t : Tables} {w : postgres.World}

/-- The database's error for a text that is no uuid. -/
def invalidUuid : Failure := .query ⟨"22P02", none⟩

theorem castUuid_error {text : String} {e : Failure} (h : castUuid text = .error e) :
    (e = notStorable ∨ e = invalidUuid) ∧ Uuid.parse? text = none := by
  cases hparse : Uuid.parse? text with
  | some u => cases (castUuid_ok.2 hparse).symm.trans h
  | none =>
    refine ⟨?_, rfl⟩
    rw [castUuid, hparse, bindText, require] at h
    split at h
    · cases h; exact .inr rfl
    · cases h; exact .inl rfl

/-- **Stored legs can be compensated.** The transaction is found in a known currency, and
`create` accepts its legs negated. -/
theorem Recorded.compensated (h : Recorded t) {target : Uuid} {original : OriginalTransaction}
    (ho : t.original target = some original) (id : Uuid) :
    ∃ currency journal, Currency.of original.currency = .ok currency ∧
      JournalTransaction.create id.text (ReverseService.compensatingLegs original currency) = .ok (.ok journal) ∧
      Compensated original id currency journal := by
  obtain ⟨row, hrow, rfl⟩ := Tables.original_eq_some ho
  obtain ⟨hcode, hne⟩ := h.journal target row hrow
  obtain ⟨currency, hof, -⟩ := Currency.of_supported hcode
  have hperm : (Tables.bySeq (t.postingsOf target)).Perm (t.postingsOf target) := List.perm_insertionSort _ _
  have hlegs : ReverseService.compensatingLegs
      ⟨row.currency, (Tables.bySeq (t.postingsOf target)).map fun p => (p.accountId, p.amount)⟩ currency =
      (Tables.bySeq (t.postingsOf target)).map fun p => ⟨⟨p.accountId.text⟩, ⟨-p.amount, currency⟩⟩ := by
    rw [ReverseService.compensatingLegs, List.map_map]
    rfl
  have hsum : ((Tables.bySeq (t.postingsOf target)).map fun p => -p.amount).sum = 0 := by
    rw [(hperm.map _).sum_eq]
    show ((t.postingsOf target).map (Neg.neg ∘ PostingRow.amount)).sum = 0
    rw [← List.map_map, ← List.sum_neg, h.balanced target, Int.neg_zero]
  have hcreate : ∃ j, JournalTransaction.create id.text
      ((Tables.bySeq (t.postingsOf target)).map fun p => ⟨⟨p.accountId.text⟩, ⟨-p.amount, currency⟩⟩) = .ok (.ok j) ∧
      j.id = id.text ∧ j.currency = currency ∧ j.postings = _ := JournalTransaction.create_eq_ok
    (fun hnil => hne (List.nil_perm.1 (List.map_eq_nil_iff.1 hnil ▸ hperm)))
    (by
      intro p hp
      obtain ⟨q, -, rfl⟩ := List.mem_map.1 hp
      rfl)
    (by
      intro p hp
      obtain ⟨q, hq, rfl⟩ := List.mem_map.1 hp
      have hnonzero := (h.posting q (List.mem_of_mem_filter (hperm.mem_iff.1 hq))).1
      show -q.amount ≠ 0
      omega)
    (by rw [List.map_map]; exact hsum)
  obtain ⟨journal, hjournal, hid, hcur, hpostings⟩ := hcreate
  rw [← hlegs] at hjournal hpostings
  exact ⟨currency, journal, hof, hjournal, hof, hid, hcur, hpostings⟩

/-- The account of a compensating leg has the currency of the transaction. -/
theorem Recorded.compensating_account (h : Recorded t) {target : Uuid} {original : OriginalTransaction}
    {currency : Currency} {id : Uuid} {journal : JournalTransaction} (ho : t.original target = some original)
    (hcomp : Compensated original id currency journal) {p : Posting} (hp : p ∈ journal.postings) :
    ∃ u row, p.accountId.value = u.text ∧ t.accounts.get? u = some row ∧ currency.code = some row.currency := by
  obtain ⟨row, hrow, rfl⟩ := Tables.original_eq_some ho
  obtain ⟨c, hof, hcode⟩ := Currency.of_supported (h.journal target row hrow).1
  obtain rfl : c = currency := Except.ok.inj (hof.symm.trans hcomp.supported)
  rw [hcomp.postings] at hp
  obtain ⟨q, hq, rfl⟩ := List.mem_map.1 hp
  obtain ⟨r, hr, rfl⟩ := List.mem_map.1 hq
  have hr := List.mem_filter.1 ((List.perm_insertionSort _ _).mem_iff.1 hr)
  obtain ⟨-, acc, j, hacc, hj, hsame⟩ := h.posting r hr.1
  rw [of_decide_eq_true hr.2, hrow] at hj
  cases hj
  exact ⟨r.accountId, acc, rfl, hacc, hcode.trans (congrArg some hsame.symm)⟩

/-- One `INSERT` that took the legs takes them negated. -/
theorem Recorded.compensating_parameters (h : Recorded t) {target : Uuid} {original : OriginalTransaction}
    {currency : Currency} {id : Uuid} {journal : JournalTransaction} (ho : t.original target = some original)
    (hcomp : Compensated original id currency journal) : 6 * journal.postings.length ≤ 65535 := by
  obtain ⟨row, -, rfl⟩ := Tables.original_eq_some ho
  rw [hcomp.postings, ReverseService.compensatingLegs, List.length_map, List.length_map, Tables.bySeq,
    (List.perm_insertionSort _ _).length_eq]
  exact h.parameters target

/-- The only exceptions of the transaction of a reversal. -/
def ReverseEnds (e : Failure) : Prop :=
  e = .alreadyReversed ∨ e = .posting .insufficientFunds ∨ e = duplicateId ∨ e = outOfRange

theorem Recorded.reverse_body (h : Recorded t) {transactionId : String} {target id : Uuid}
    {original : OriginalTransaction} {currency : Currency} {journal : JournalTransaction}
    (htarget : Uuid.parse? transactionId = some target) (ho : t.original target = some original)
    (hcomp : Compensated original id currency journal) :
    postgres.Ends t (fun r ws => (∃ receipt, r = .reversed (.ok receipt)) ∧ Recorded (postgres.view t ws)) ReverseEnds
      (ReverseService.body sha256 transactionId journal currency) [] := by
  have hread : postgres.read t (JournalTransactionsRepository.hasReversal transactionId) =
      .ok (t.reversalOf target).isSome := by
    simp only [JournalTransactionsRepository.hasReversal, Prog.ask, Prog.query_bind, Prog.pure_bind,
      Engine.read, Query.answer, castUuid_ok.2 htarget, bind, Except.bind, pure, Except.pure]
  refine Engine.ends_bind (Engine.ends_lift (fun reversed hr => ?_) fun e he => ?_)
  swap
  · cases hread.symm.trans he
  obtain rfl : _ = reversed := Except.ok.inj (hread.symm.trans hr)
  cases hrev : t.reversalOf target with
  | some r => exact .inl rfl
  | none =>
    have haccount := fun p hp => h.compensating_account ho hcomp (p := p) hp
    have hlink : Linkable t (some transactionId) := by
      refine ⟨some target, htarget, ?_⟩
      rintro _ ⟨⟩
      refine ⟨hrev, ?_⟩
      obtain ⟨row, hrow, -⟩ := Tables.original_eq_some ho
      rw [hrow]
      rfl
    have hpost := @LedgerPoster.post_ends t [] sha256 journal currency (reverseOptions transactionId) id (fun p hp => by
        obtain ⟨u, row, hu, -⟩ := haccount p hp
        exact h.readable (u := u) (hu ▸ u.parse?_text)) hcomp.journal_currency
      (hcomp.journal_id ▸ id.parse?_text) hlink
    show postgres.Ends t _ _ (Prog.bind (LedgerPoster.post sha256 journal currency (reverseOptions transactionId))
      fun receipt => .pure (Reply.reversed (.ok receipt))) []
    refine Engine.ends_bind (hpost.and_yields.mono (fun receipt ws hy => ⟨⟨receipt, rfl⟩, ?_⟩) fun e he => ?_)
    · obtain ⟨b, hv, -, rfl⟩ := post_yields hy.2
      exact h.booked hv hcomp.journal_currency (booked_writes t b)
    · rcases he with ⟨code, rfl, hrefuse⟩ | ⟨-, ⟨rfl, -⟩ | ⟨-, ⟨rfl, hmany⟩ | ⟨rfl, -⟩⟩⟩
      · -- only a floor can refuse it
        cases hrefuse with
        | @unknownAccount p u hp hu hnone =>
          obtain ⟨u', row, htext, hrow, -⟩ := haccount p hp
          rw [htext, u'.parse?_text] at hu
          cases hu
          cases hnone.symm.trans hrow
        | @accountCurrencyMismatch p u row hp hn hne =>
          obtain ⟨u', row', htext, hrow, hcode⟩ := haccount p hp
          have hu := hn.1
          rw [htext, u'.parse?_text] at hu
          cases hu
          cases hn.2.symm.trans hrow
          exact absurd hcode.symm hne
        | notAccountOwner hreq => cases hreq
        | insufficientFunds => exact .inr (.inl rfl)
      · exact .inr (.inr (.inl rfl))
      · exact absurd (h.compensating_parameters ho hcomp) hmany
      · exact .inr (.inr (.inr rfl))

/-- **How a reversal alone ends**: in one of its results, or in an error of the database. -/
theorem Recorded.reverse_ends (h : Recorded w.db) (sha256 : String → String) (transactionId : String) (id : Uuid) :
    (∃ r, (serve sha256 (.reverse transactionId id) w).1 = .ok (.reversed r)) ∨
      ∃ e, (serve sha256 (.reverse transactionId id) w).1 = .error e ∧
        (((e = notStorable ∨ e = invalidUuid) ∧ Uuid.parse? transactionId = none) ∨ e = duplicateId ∨
          e = outOfRange) := by
  have hread : postgres.read w.db (ReverseService.reverse sha256 transactionId id) =
      ((castUuid transactionId).map w.db.original).bind fun o =>
        postgres.read w.db (ReverseService.plan sha256 transactionId id o) := by
    rw [ReverseService.reverse, Engine.read_bind, original_read]
  cases hc : castUuid transactionId with
  | error e =>
    rw [hc] at hread
    refine .inr ⟨e, ?_, .inl (castUuid_error hc)⟩
    rw [serve, Request.call, Engine.serve_error hread]
  | ok target =>
    rw [hc] at hread
    cases ho : w.db.original target with
    | none =>
      have hread : postgres.read w.db (ReverseService.reverse sha256 transactionId id) =
          .ok (.reply (.reversed (.error .unknownTransaction))) := by
        rw [hread, Except.map, Except.bind, ho]
        rfl
      rw [serve, Request.call, Engine.serve_reply hread]
      exact .inl ⟨_, rfl⟩
    | some original =>
      obtain ⟨currency, journal, hof, hcreate, hcomp⟩ := h.compensated ho id
      have hread : postgres.read w.db (ReverseService.reverse sha256 transactionId id) =
          .ok (.transaction (ReverseService.body sha256 transactionId journal currency) ReverseService.recover) := by
        rw [hread, Except.map, Except.bind, ho, ReverseService.plan, hof]
        simp only [hcreate]
        rfl
      rcases (h.reverse_body (castUuid_ok.1 hc) ho hcomp).serve hread fun _ _ hpost => hpost.2.settle _
        with ⟨r, ws, ⟨⟨receipt, rfl⟩, -⟩, hres, -⟩ | ⟨e, he, hres, -⟩
      · exact .inl ⟨_, hres⟩
      · rw [serve, Request.call, hres]
        rcases he with rfl | rfl | rfl | rfl
        · exact .inl ⟨_, rfl⟩
        · exact .inl ⟨_, rfl⟩
        · exact .inr ⟨_, rfl, .inr (.inl rfl)⟩
        · exact .inr ⟨_, rfl, .inr (.inr rfl)⟩

/-- **The internal throws of a reversal are unreachable.** In every run, whatever id a
reversal is asked for: it throws no message of its own (an unknown currency, legs that
cannot be compensated, a balance row that is not there), it rethrows no `LedgerPostingFailure`,
and `create` accepts the negated legs of every stored transaction. -/
theorem reverse_foreseen (h : Reachable sha256 admitted w) (transactionId : String) (id : Uuid) :
    (∀ message, (serve sha256 (.reverse transactionId id) w).1 ≠ .error (.error message)) ∧
      (∀ code, (serve sha256 (.reverse transactionId id) w).1 ≠ .error (.posting code)) ∧
      ∀ target original, Uuid.parse? transactionId = some target → w.db.original target = some original →
        ∃ currency journal, Currency.of original.currency = .ok currency ∧
          JournalTransaction.create id.text (ReverseService.compensatingLegs original currency) = .ok (.ok journal) := by
  have hends := h.recorded.reverse_ends sha256 transactionId id
  refine ⟨fun message hres => ?_, fun code hres => ?_, fun target original _ ho => ?_⟩
  · rcases hends with ⟨r, hr⟩ | ⟨e, hr, ⟨rfl | rfl, -⟩ | rfl | rfl⟩ <;> cases hr.symm.trans hres
  · rcases hends with ⟨r, hr⟩ | ⟨e, hr, ⟨rfl | rfl, -⟩ | rfl | rfl⟩ <;> cases hr.symm.trans hres
  · obtain ⟨currency, journal, hof, hcreate, -⟩ := h.recorded.compensated ho id
    exact ⟨currency, journal, hof, hcreate⟩

/-- The rule covers the reversal of the deposit. -/
theorem reverse_foreseen_deposit :
    (∀ message, (serve (Sample.digest Sample.fundingDigests) (.reverse Sample.deposit.text Sample.second)
        Sample.fundedWorld).1 ≠ .error (.error message)) ∧
      (∀ code, (serve (Sample.digest Sample.fundingDigests) (.reverse Sample.deposit.text Sample.second)
        Sample.fundedWorld).1 ≠ .error (.posting code)) ∧
      ∀ target original, Uuid.parse? Sample.deposit.text = some target →
        Sample.fundedWorld.db.original target = some original →
        ∃ currency journal, Currency.of original.currency = .ok currency ∧
          JournalTransaction.create Sample.second.text (ReverseService.compensatingLegs original currency) =
            .ok (.ok journal) :=
  reverse_foreseen (Sample.reachable_after (by decide)) Sample.deposit.text Sample.second

end MiniLedger
