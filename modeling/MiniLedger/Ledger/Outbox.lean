import MiniLedger.Ledger.Recorded
import MiniLedger.Ledger.Serial

/-!
# The outbox and the money

A journal, its event, the stored response and the returned receipt leave one transaction
together. So the events of the outbox are, one by one and in order, the journals of the
ledger, and every receipt a client holds is the payload of one of them.
-/

namespace MiniLedger

open Collections Sessions

variable {sha256 : String → String} {db db' t : Tables}

/-! ## What an event says -/

/-- A line of a receipt tells what the row of a posting says. -/
def Tells (line : PostingReceipt) (p : PostingRow) : Prop :=
  Uuid.parse? line.accountId = some p.accountId ∧ line.amount = toString p.amount ∧
    line.balanceAfter = toString p.balanceAfter

/-- The event announces the journal `id` with the postings `rows`. -/
structure Announces (rows : List PostingRow) (e : OutboxRow) (id : Uuid) (journal : JournalRow) : Prop where
  type : e.type = if journal.reversesTransactionId.isSome then "transfer.reversed" else "transfer.posted"
  id : e.payload.id = id.text
  currency : e.payload.currency = some journal.currency
  lines : List.Forall₂ Tells e.payload.postings rows

/-- The receipt a reply returns, `null` included. -/
def Reply.returned : Reply → Option (Option TransferReceipt)
  | .transferred (.ok response) => some response
  | .reversed (.ok receipt) => some (some receipt)
  | _ => none

/-! ## What every commit keeps -/

/-- Journals and events correspond one by one, and every response on record is a payload. -/
structure Published (t : Tables) : Prop where
  events : List.Forall₂ (fun e entry => Announces (t.postingsOf entry.1) e entry.1 entry.2) t.outbox t.journals.entries
  responses : ∀ k row, t.keys.get? k = some row → ∃ response, row.response = some response ∧ response ∈ t.outbox.map OutboxRow.payload

theorem tells_rows {journal : JournalTransaction} {currency : Currency} {lines : List PostingLine} {rows : List PostingRow}
    (h : List.Forall₂ Stored (JournalTransactionsRepository.toPostingRows journal lines) rows) :
    List.Forall₂ Tells (LedgerPoster.receipt journal currency lines).postings rows := by
  have hlines : (LedgerPoster.receipt journal currency lines).postings =
      (JournalTransactionsRepository.toPostingRows journal lines).map fun v =>
        ⟨v.accountId, toString v.amount, toString v.balanceAfter⟩ := by
    rw [JournalTransactionsRepository.toPostingRows, List.map_zipWith]
    rfl
  rw [hlines, List.forall₂_map_left_iff]
  refine h.imp fun v p hstored => ?_
  obtain ⟨-, haid, hamount, hbalance, -⟩ := hstored
  exact ⟨haid, by rw [hamount], by rw [hbalance]⟩

section

variable {journal : JournalTransaction} {currency : Currency} {options : PostOptions} {b : Booking}

/-- The event of a booking announces its journal. -/
theorem Booking.Valid.announces (hv : b.Valid sha256 db journal currency options) (hcur : journal.currency = currency)
    (hid : Canonical journal.id)
    (htype : options.eventType = if options.reversesTransactionId.isSome then "transfer.reversed" else "transfer.posted") :
    Announces b.rows b.event b.id ⟨b.currency, b.reverses⟩ where
  type := by
    have htarget := hv.target
    have hsome : options.reversesTransactionId.isSome = b.reverses.isSome := by
      cases hr : options.reversesTransactionId with
      | none =>
        rw [hr] at htarget
        cases hb : b.reverses with
        | none => rfl
        | some r => rw [hb] at htarget; exact htarget.elim
      | some text =>
        rw [hr] at htarget
        cases hb : b.reverses with
        | none => rw [hb] at htarget; exact htarget.elim
        | some r => rfl
    rw [hv.event, htype, hsome]
  id := by
    rw [hv.event]
    exact (Uuid.text_of_canonical hid hv.id).symm
  currency := by
    rw [hv.event, ← hv.code, hcur]
    rfl
  lines := by
    rw [hv.event]
    exact tells_rows hv.rows

theorem Published.booked_events (h : Published db) (hr : Recorded db) (hv : b.Valid sha256 db journal currency options)
    (hb : Booked db db' b) (hnew : Announces b.rows b.event b.id ⟨b.currency, b.reverses⟩) :
    List.Forall₂ (fun e entry => Announces (db'.postingsOf entry.1) e entry.1 entry.2) db'.outbox db'.journals.entries := by
  rw [hb.outbox, hb.journals, Keyed.entries_set_of_none hv.fresh]
  refine List.rel_append ?_ (.cons ?_ .nil)
  · refine Forall₂.imp_mem h.events fun e _ entry hentry hold => ?_
    have hne : entry.1 ≠ b.id := by
      intro heq
      have hget : db.journals.get? entry.1 = some entry.2 := Keyed.get?_eq_some_iff.2 hentry
      rw [heq, hv.fresh] at hget
      cases hget
    rw [hb.postingsOf hv, if_neg hne, List.append_nil]
    exact hold
  · rw [hb.postingsOf hv, if_pos rfl, hr.postingsOf_fresh hv.fresh, List.nil_append]
    exact hnew

end

theorem Published.commit {request : Request} {r : Reply} {ws : List Write} (h : Published db) (hr : Recorded db)
    (hc : Committed sha256 db request r ws) : Published (postgres.view db ws) := by
  cases hc with
  | opened => exact ⟨h.events, h.responses⟩
  | replayed => exact h
  | @transferred input id currency amount journal b hch hv hunclaimed =>
    have hb := booked_transfer db (TransferService.claimedKey input.idempotencyKey)
      (TransferService.fingerprint sha256 input) b
    have hid : Canonical journal.id := hch.journal_id ▸ id.canonical_text
    refine ⟨h.booked_events hr hv hb (hv.announces hch.journal_currency hid rfl), fun k row hrow => ?_⟩
    rw [hb.outbox, List.map_append]
    rw [transfer_keys] at hrow
    split at hrow
    · cases hrow
      exact ⟨_, rfl, List.mem_append_right _ (List.mem_singleton_self _)⟩
    · obtain ⟨response, hresponse, hmem⟩ := h.responses k row hrow
      exact ⟨response, hresponse, List.mem_append_left _ hmem⟩
  | @reversed transactionId id target original currency journal b _ _ hcomp _ hv _ =>
    have hb := booked_writes db b
    have hid : Canonical journal.id := hcomp.journal_id ▸ id.canonical_text
    refine ⟨h.booked_events hr hv hb (hv.announces hcomp.journal_currency hid rfl), fun k row hrow => ?_⟩
    rw [hb.outbox, List.map_append]
    rw [booking_keys] at hrow
    obtain ⟨response, hresponse, hmem⟩ := h.responses k row hrow
    exact ⟨response, hresponse, List.mem_append_left _ hmem⟩

/-- The outbox only grows. -/
theorem Committed.outbox {request : Request} {r : Reply} {ws : List Write} (hc : Committed sha256 db request r ws) :
    db.outbox <+: (postgres.view db ws).outbox := by
  cases hc with
  | opened | replayed => exact List.prefix_refl _
  | transferred => rw [(booked_transfer ..).outbox]; exact List.prefix_append _ _
  | reversed => rw [(booked_writes ..).outbox]; exact List.prefix_append _ _

/-- What a commit returns is in the outbox then. -/
theorem Committed.returned {request : Request} {r : Reply} {ws : List Write} (h : Published db)
    (hc : Committed sha256 db request r ws) {response : Option TransferReceipt} (hr : r.returned = some response) :
    ∃ receipt, response = some receipt ∧ receipt ∈ (postgres.view db ws).outbox.map OutboxRow.payload := by
  cases hc with
  | opened => cases hr
  | @replayed _ _ _ _ _ key row _ _ hrow _ =>
    cases hr
    exact h.responses key row hrow
  | transferred =>
    cases hr
    rw [(booked_transfer ..).outbox, List.map_append]
    exact ⟨_, rfl, List.mem_append_right _ (List.mem_singleton_self _)⟩
  | reversed =>
    cases hr
    rw [(booked_writes ..).outbox, List.map_append]
    exact ⟨_, rfl, List.mem_append_right _ (List.mem_singleton_self _)⟩

theorem published_migrated (ids : WorldIds) (createdAt : Nat) (entrySize : String → Nat) : Published (migrated ids createdAt entrySize).db where
  events := .nil
  responses k row hrow := by cases hrow

theorem Reachable.published {P : Tables → Request → Prop} {w : postgres.World} (h : Reachable sha256 P w) :
    Published w.db := by
  obtain ⟨ids, createdAt, entrySize, hs⟩ := h
  exact (hs.invariant (motive := fun t => Recorded t ∧ Published t) ⟨recorded_migrated ids createdAt entrySize, published_migrated ids createdAt entrySize⟩
    fun _ hi hc => ⟨hi.1.commit hc, hi.2.commit hi.1 hc⟩).2

/-! ## One event for each journal -/

theorem Published.payloads_nodup (h : Published t) : (t.outbox.map OutboxRow.payload).Nodup := by
  have hids : (t.outbox.map OutboxRow.payload).map TransferReceipt.id = t.journals.keys.map Uuid.text := by
    rw [List.map_map, Keyed.keys, List.map_map]
    exact Forall₂.map_eq h.events fun e _ entry _ hentry => hentry.id
  have hnodup : (t.journals.keys.map Uuid.text).Nodup := t.journals.nodup.map fun _ _ => Uuid.ext
  rw [← hids] at hnodup
  exact hnodup.of_map _

/-- The outbox and the ledger of a configuration say the same. -/
structure Agrees {ι : Type} (c : Config postgres ι Reply) : Prop where
  /-- each journal has exactly one event -/
  journal : ∀ id journal, c.db.journals.get? id = some journal →
    ∃! n : Nat, ∃ e, c.db.outbox[n]? = some e ∧ Announces (Tables.bySeq (c.db.postingsOf id)) e id journal
  /-- and each event one journal -/
  event : ∀ (n : Nat) e, c.db.outbox[n]? = some e →
    ∃! id, ∃ journal, c.db.journals.get? id = some journal ∧ Announces (Tables.bySeq (c.db.postingsOf id)) e id journal
  response : ∀ k row, c.db.keys.get? k = some row → ∃ receipt, row.response = some receipt ∧
    ∃! n : Nat, (c.db.outbox.map OutboxRow.payload)[n]? = some receipt
  returned : ∀ i r response, c.phase i = .done (.ok r) → r.returned = some response → ∃ receipt, response = some receipt ∧
    ∃! n : Nat, (c.db.outbox.map OutboxRow.payload)[n]? = some receipt

theorem Published.journal (h : Published t) (ho : Ordered t.postings) {id : Uuid} {journal : JournalRow}
    (hj : t.journals.get? id = some journal) :
    ∃! n : Nat, ∃ e, t.outbox[n]? = some e ∧ Announces (Tables.bySeq (t.postingsOf id)) e id journal := by
  obtain ⟨n, hn⟩ := List.mem_iff_getElem?.1 (Keyed.get?_eq_some_iff.1 hj)
  obtain ⟨e, he, hann⟩ := Forall₂.getElem?_left h.events hn
  rw [ho.bySeq_postingsOf]
  refine ⟨n, ⟨e, he, hann⟩, ?_⟩
  rintro m ⟨e', he', hann'⟩
  obtain ⟨entry, hentry, hother⟩ := Forall₂.getElem?_right h.events he'
  have hsame : entry.1 = id := Uuid.ext (hother.id.symm.trans hann'.id)
  have hkeys : t.journals.keys[m]? = t.journals.keys[n]? := by
    rw [Keyed.keys, List.getElem?_map, List.getElem?_map, hentry, hn, Option.map_some, Option.map_some, hsame]
  have hlt : m < t.journals.keys.length := by
    rw [Keyed.keys, List.length_map]
    exact (List.getElem?_eq_some_iff.1 hentry).1
  exact (List.getElem?_inj hlt t.journals.nodup).1 hkeys

theorem Published.event (h : Published t) (ho : Ordered t.postings) {n : Nat} {e : OutboxRow} (he : t.outbox[n]? = some e) :
    ∃! id, ∃ journal, t.journals.get? id = some journal ∧ Announces (Tables.bySeq (t.postingsOf id)) e id journal := by
  obtain ⟨entry, hentry, hann⟩ := Forall₂.getElem?_right h.events he
  refine ⟨entry.1, ⟨entry.2, Keyed.get?_eq_some_iff.2 (List.mem_of_getElem? hentry), ?_⟩, ?_⟩
  · rw [ho.bySeq_postingsOf]
    exact hann
  · rintro id ⟨_, -, hann'⟩
    exact Uuid.ext (hann'.id.symm.trans hann.id)

theorem reaches_published {ι : Type} [DecidableEq ι] [Fintype ι] {requests : ι → Request} {w : postgres.World}
    {c : Config postgres ι Reply} (hw : Reachable sha256 admitted w)
    (h : Reaches (Config.start w fun i => (requests i).call sha256) c) : Published c.db :=
  (reaches_invariant (motive := fun t => Recorded t ∧ Published t) hw h ⟨hw.recorded, hw.published⟩
    fun hi hc => ⟨hi.1.commit hc, hi.2.commit hi.1 hc⟩).2

/-- **The outbox never disagrees with the money.** -/
theorem outbox_agrees {ι : Type} [DecidableEq ι] [Fintype ι] {requests : ι → Request} {w : postgres.World}
    {c : Config postgres ι Reply} (hw : Reachable sha256 admitted w)
    (h : Reaches (Config.start w fun i => (requests i).call sha256) c) : Agrees c := by
  have ho := (reaches_inSequence hw h).ordered
  have kept : ∀ {db : Tables} {request : Request} {r : Reply} {ws : List Write}, Recorded db ∧ Published db →
      Committed sha256 db request r ws → Recorded (postgres.view db ws) ∧ Published (postgres.view db ws) :=
    fun hi hc => ⟨hi.1.commit hc, hi.2.commit hi.1 hc⟩
  have hpublished : Published c.db :=
    (reaches_invariant (motive := fun t => Recorded t ∧ Published t) hw h ⟨hw.recorded, hw.published⟩ kept).2
  have chronicle := h.chronicle (D := discipline) hw.sound fun _ => request_disciplined _
  have hlog := chronicle.entries (motive := fun t => Recorded t ∧ Published t)
    (Q := fun (e : Commit postgres ι Reply) (t : Tables) => ∀ response, e.reply.returned = some response → ∃ receipt, response = some receipt ∧
      receipt ∈ t.outbox.map OutboxRow.payload)
    ⟨hw.recorded, hw.published⟩ (fun hi hc => kept hi (request_commits hc))
    (fun hi hc response hr => (request_commits hc).returned hi.2 hr)
    (fun _ hq hc response hr => by
      obtain ⟨receipt, hresponse, hmem⟩ := hq response hr
      exact ⟨receipt, hresponse, ((request_commits hc).outbox.map _).subset hmem⟩)
  obtain ⟨houtcome, -⟩ := h.outcome fun i => request_otherwise (requests i)
  refine ⟨fun id journal hj => hpublished.journal ho hj, fun n e he => hpublished.event ho he, fun k row hrow => ?_,
    fun i r response hdone hr => ?_⟩
  · obtain ⟨receipt, hresponse, hmem⟩ := hpublished.responses k row hrow
    exact ⟨receipt, hresponse, existsUnique_getElem? hpublished.payloads_nodup hmem⟩
  · have hi := houtcome i
    rw [hdone] at hi
    rcases hi with ⟨hrefused, -⟩ | ⟨e, he, -, heq⟩
    · have hrefused : r.Refused := hrefused r rfl
      unfold Reply.returned at hr
      split at hr
      · exact hrefused.elim
      · exact hrefused.elim
      · cases hr
    · cases heq
      obtain ⟨receipt, hresponse, hmem⟩ := hlog e he response hr
      exact ⟨receipt, hresponse, existsUnique_getElem? hpublished.payloads_nodup hmem⟩

/-- Two overlapping deposits, two events. -/
theorem outbox_agrees_deposits : ∃ c : Config postgres (Fin 2) Reply,
    (Config.start Sample.emptyAccounts fun i =>
      (Sample.twoDeposits i).call (Sample.digest Sample.twoDepositsDigests)).play Sample.overlapping = some c ∧
    c.db.outbox.length = 2 ∧ Agrees c := by
  obtain ⟨c, hplay, -, hevents, -⟩ := Sample.overlapping_play
  exact ⟨c, hplay, hevents, outbox_agrees (Sample.reachable_after (by decide)) (Reaches.of_play (.refl _) hplay)⟩

end MiniLedger
