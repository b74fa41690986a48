import MiniLedger.Ledger.Booked
import MiniLedger.Ledger.Refusals
import MiniLedger.Ledger.Runs

/-!
# What every run records

The tables of every run hold together in ways no single constraint of the schema states:
journals have a supported currency and legs that are not zero, balance, are on accounts of
that currency, and are no more than one `INSERT` takes; accounts have a balance row. Any
commit of a request keeps that.
-/

namespace MiniLedger

open Collections Sessions

/-- What the schema does not state of the tables, and every run keeps. -/
structure Recorded (t : Tables) : Prop where
  account : ∀ u row, t.accounts.get? u = some row → row.currency ∈ Currency.codes ∧ ∃ s, t.balances.get? u = some s
  journal : ∀ id row, t.journals.get? id = some row → row.currency ∈ Currency.codes ∧ t.postingsOf id ≠ []
  posting : ∀ p ∈ t.postings, p.amount ≠ 0 ∧ ∃ row j, t.accounts.get? p.accountId = some row ∧
    t.journals.get? p.transactionId = some j ∧ row.currency = j.currency
  balanced : ∀ id, ((t.postingsOf id).map PostingRow.amount).sum = 0
  parameters : ∀ id, 6 * (t.postingsOf id).length ≤ 65535

variable {sha256 : String → String} {db db' t : Tables} {ws : List Write} {w : postgres.World}

/-- The deferred trigger finds nothing on such tables. -/
theorem Recorded.settle (h : Recorded t) (ws : List Write) : Tables.balanced t ws = .ok () := by
  rw [Tables.balanced, require_ok]
  intro p _
  exact h.balanced p.transactionId

/-- Every id text can be read. -/
theorem Recorded.readable (h : Recorded t) {text : String} {u : Uuid} (hu : Uuid.parse? text = some u) :
    Readable t text := ⟨u, hu, h.account u⟩

/-- A new id has no postings yet. -/
theorem Recorded.postingsOf_fresh (h : Recorded t) {id : Uuid} (hid : t.journals.get? id = none) :
    t.postingsOf id = [] := by
  refine List.filter_eq_nil_iff.2 fun p hp hpid => ?_
  obtain ⟨-, _, j, -, hj, -⟩ := h.posting p hp
  rw [of_decide_eq_true hpid, hid] at hj
  cases hj

section

variable {journal : JournalTransaction} {currency : Currency} {options : PostOptions} {b : Booking}

/-- The rows have the amounts of the legs, in their order. -/
theorem Booking.Valid.rows_amounts (hv : b.Valid sha256 db journal currency options) :
    b.rows.map PostingRow.amount = journal.postings.map fun p => p.amount.amount := by
  have hlen := LedgerPoster.postLegs_length hv.legs
  have hstored : (JournalTransactionsRepository.toPostingRows journal b.legs.lines).map PostingValues.amount =
      b.rows.map PostingRow.amount := Forall₂.map_eq hv.rows fun v _ row _ h => h.2.2.1.symm
  rw [← hstored, JournalTransactionsRepository.toPostingRows, List.map_zipWith]
  exact zipWith_left hlen.ge

/-- The account of a row, in the booking's currency. -/
theorem Booking.Valid.row_account (hv : b.Valid sha256 db journal currency options) (hcur : journal.currency = currency)
    {p : PostingRow} (hp : p ∈ b.rows) : ∃ row, db.accounts.get? p.accountId = some row ∧ row.currency = b.currency := by
  obtain ⟨-, q, hq, hu, -⟩ := hv.row_leg hp
  obtain ⟨u, row, _, ⟨hu', hrow⟩, -⟩ := hv.account q hq
  obtain rfl : u = p.accountId := Option.some.inj (hu'.symm.trans hu)
  have hcode := hv.row_currency hcur hq hu
  rw [hrow] at hcode
  exact ⟨row, hrow, Option.some.inj hcode⟩

/-- A booking adds its rows to the journal it made, and to no other. -/
theorem Booked.postingsOf (hv : b.Valid sha256 db journal currency options) (hb : Booked db db' b) (id : Uuid) :
    db'.postingsOf id = db.postingsOf id ++ if id = b.id then b.rows else [] := by
  rw [Tables.postingsOf, hb.postings, List.filter_append]
  congr 1
  split
  · rename_i heq
    refine List.filter_eq_self.2 fun p hp => ?_
    rw [(hv.row_leg hp).1, heq]
    exact decide_eq_true rfl
  · rename_i hne
    refine List.filter_eq_nil_iff.2 fun p hp hpid => hne ?_
    rw [← of_decide_eq_true hpid, (hv.row_leg hp).1]

/-- The step lemma for a booking, whichever request made it. -/
theorem Recorded.booked (h : Recorded db) (hv : b.Valid sha256 db journal currency options)
    (hcur : journal.currency = currency) (hb : Booked db db' b) : Recorded db' := by
  have hlen : b.rows.length = journal.postings.length := by
    rw [← List.length_map PostingRow.amount, hv.rows_amounts, List.length_map]
  have hother : ∀ id, id ≠ b.id → db'.journals.get? id = db.journals.get? id := by
    intro id hid
    rw [hb.journals, Keyed.get?_set_of_ne _ _ hid]
  have hown : db'.journals.get? b.id = some ⟨b.currency, b.reverses⟩ := by rw [hb.journals, Keyed.get?_set_self]
  obtain ⟨first, _, hpostings⟩ := List.exists_cons_of_ne_nil journal.nonempty
  constructor
  · intro u row hrow
    rw [hb.accounts] at hrow
    obtain ⟨hcode, s, hs⟩ := h.account u row hrow
    refine ⟨hcode, ?_⟩
    rw [hb.balances, Keyed.get?_setAll, hs]
    cases Keyed.latest u b.balances with
    | none => exact ⟨s, rfl⟩
    | some s' => exact ⟨s', rfl⟩
  · intro id row hrow
    rw [hb.postingsOf hv id]
    by_cases hid : id = b.id
    · subst hid
      rw [hown] at hrow
      cases hrow
      constructor
      · obtain ⟨u, _, hu, -⟩ := hv.lock first (hpostings ▸ List.mem_cons_self ..)
        have hcode := hv.row_currency hcur (hpostings ▸ List.mem_cons_self ..) hu
        cases hacc : db.accounts.get? u with
        | none => rw [hacc] at hcode; cases hcode
        | some acc =>
          rw [hacc] at hcode
          rw [← Option.some.inj hcode]
          exact (h.account u acc hacc).1
      · rw [if_pos rfl]
        intro hnil
        have hempty := (List.append_eq_nil_iff.1 hnil).2
        rw [hempty] at hlen
        exact journal.nonempty (List.length_eq_zero_iff.1 hlen.symm)
    · rw [hother id hid] at hrow
      obtain ⟨hcode, hne⟩ := h.journal id row hrow
      rw [if_neg hid, List.append_nil]
      exact ⟨hcode, hne⟩
  · intro p hp
    rw [hb.postings, List.mem_append] at hp
    rw [hb.accounts]
    rcases hp with hp | hp
    · obtain ⟨hne, row, j, hrow, hj, hcode⟩ := h.posting p hp
      refine ⟨hne, row, j, hrow, ?_, hcode⟩
      rw [hother _ fun hid => ?_, hj]
      rw [hid, hv.fresh] at hj
      cases hj
    · obtain ⟨hid, q, hq, -, hamount⟩ := hv.row_leg hp
      obtain ⟨row, hrow, hcode⟩ := hv.row_account hcur hp
      refine ⟨?_, row, ⟨b.currency, b.reverses⟩, hrow, ?_, hcode⟩
      · rw [hamount]
        exact journal.nonzero q hq
      · rw [hid, hown]
  · intro id
    rw [hb.postingsOf hv id, List.map_append, List.sum_append, h.balanced id, Int.zero_add]
    split
    · rw [hv.rows_amounts, journal.balanced]
    · rfl
  · intro id
    rw [hb.postingsOf hv id, List.length_append]
    split
    · rename_i hid
      rw [hid, h.postingsOf_fresh hv.fresh, List.length_nil, Nat.zero_add, hlen]
      exact hv.parameters
    · exact h.parameters id

end

/-- The step lemma: every commit keeps it. -/
theorem Recorded.commit {request : Request} {r : Reply} (h : Recorded db) (hc : Committed sha256 db request r ws) :
    Recorded (postgres.view db ws) := by
  cases hc with
  | replayed => exact h
  | transferred currency amount journal b hch hv => exact h.booked hv hch.journal_currency (booked_transfer ..)
  | reversed target original currency journal b _ _ hcomp _ hv =>
    exact h.booked hv hcomp.journal_currency (booked_writes ..)
  | @opened input id now currency code hsupported hcode hnone _ =>
    rw [view_opened]
    have hkeep : ∀ {u : Uuid} {row : AccountRow}, db.accounts.get? u = some row →
        (db.accounts.set id ⟨.user, code, some 0, none, some input.ownerId, now⟩).get? u = some row := by
      intro u row hrow
      rw [Keyed.get?_set_of_ne, hrow]
      rintro rfl
      cases hnone.symm.trans hrow
    refine ⟨fun u row hrow => ?_, h.journal, fun p hp => ?_, h.balanced, h.parameters⟩
    · by_cases hu : u = id
      · subst hu
        rw [Keyed.get?_set_self] at hrow
        cases hrow
        refine ⟨?_, ⟨0, none⟩, Keyed.get?_set_self ..⟩
        rcases Currency.of_cases hsupported with ⟨hm, hcode'⟩ | ⟨-, hcode'⟩
        · cases hcode.symm.trans hcode'
          exact hm
        · cases hcode.symm.trans hcode'
      · rw [Keyed.get?_set_of_ne _ _ hu] at hrow
        obtain ⟨hm, s, hs⟩ := h.account u row hrow
        exact ⟨hm, s, (Keyed.get?_set_of_ne _ _ hu).trans hs⟩
    · obtain ⟨hne, row, j, hrow, hj, hcode⟩ := h.posting p hp
      exact ⟨hne, row, j, hkeep hrow, hj, hcode⟩

/-- No request changes an account row. -/
theorem Committed.account {request : Request} {r : Reply} {ws : List Write} (hc : Committed sha256 db request r ws)
    {u : Uuid} {row : AccountRow} (h : db.accounts.get? u = some row) :
    (postgres.view db ws).accounts.get? u = some row := by
  cases hc with
  | replayed => exact h
  | transferred => rw [(booked_transfer ..).accounts]; exact h
  | reversed => rw [(booked_writes ..).accounts]; exact h
  | @opened input id now currency code _ _ hnone _ =>
    rw [view_opened]
    have hne : u ≠ id := by
      rintro rfl
      rw [hnone] at h
      cases h
    exact (Keyed.get?_set_of_ne _ _ hne).trans h

theorem recorded_migrated (ids : WorldIds) (createdAt : Nat) (entrySize : String → Nat) :
    Recorded (migrated ids createdAt entrySize).db where
  account u row hrow := by
    obtain ⟨code, hcode, rfl, hs⟩ := migrated_account hrow
    exact ⟨hcode, _, hs⟩
  journal id row hrow := by
    cases hrow
  posting p hp := absurd hp List.not_mem_nil
  balanced id := rfl
  parameters id := Nat.zero_le _

/-- The run lemma. -/
theorem Reachable.recorded {P : Tables → Request → Prop} (h : Reachable sha256 P w) : Recorded w.db := by
  obtain ⟨ids, createdAt, entrySize, hs⟩ := h
  exact hs.invariant (recorded_migrated ids createdAt entrySize) fun _ hi hc => hi.commit hc

end MiniLedger
