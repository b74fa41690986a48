import MiniLedger.Ledger.Commits

/-!
# What a booking does to the balances

A row no leg names keeps its balance. A row all of whose legs spell its id alike moves from
what was locked to what is running under that spelling, by the sum of those legs.
-/

namespace MiniLedger

open Collections

/-- No two legs spell one id differently. -/
def OneSpelling (postings : List Posting) : Prop :=
  ∀ p ∈ postings, ∀ q ∈ postings, ∀ u, Uuid.parse? p.accountId.value = some u → Uuid.parse? q.accountId.value = some u →
    q.accountId.value = p.accountId.value

theorem oneSpelling_of_canonical {postings : List Posting} (h : ∀ p ∈ postings, Canonical p.accountId.value) :
    OneSpelling postings := fun p hp q hq _ hu hu' =>
  (Uuid.text_of_canonical (h q hq) hu').symm.trans (Uuid.text_of_canonical (h p hp) hu)

/-- A reversal spells its ids as the database printed them. -/
theorem Compensated.canonical {original : OriginalTransaction} {id : Uuid} {currency : Currency}
    {journal : JournalTransaction} (h : Compensated original id currency journal) :
    ∀ p ∈ journal.postings, Canonical p.accountId.value := by
  rw [h.postings]
  intro p hp
  obtain ⟨q, -, rfl⟩ := List.mem_map.1 hp
  exact q.1.canonical_text

/-- The money on the accounts of one currency. -/
def total (t : Tables) (currency : String) : Int :=
  t.balances.sum fun u s => if (t.accounts.get? u).map AccountRow.currency = some currency then s.balance else 0

variable {sha256 : String → String} {db db' : Tables} {journal : JournalTransaction} {currency : Currency}
  {options : PostOptions} {b : Booking}

/-- The running map has the texts of the legs, no others. -/
theorem Booking.Valid.mem_running (h : b.Valid sha256 db journal currency options) {k : String} :
    k ∈ b.legs.running.keys ↔ ∃ p ∈ journal.postings, p.accountId.value = k := by
  rw [LedgerPoster.postLegs_keys h.legs, Keyed.mem_keys_iff]
  constructor
  · rintro ⟨s, hs⟩
    exact h.locked k s hs
  · rintro ⟨p, hp, rfl⟩
    obtain ⟨_, s, -, -, hs⟩ := h.lock p hp
    exact ⟨s, hs⟩

/-- What a booking sets a balance to, and what it was before. -/
theorem Booking.Valid.updated (h : b.Valid sha256 db journal currency options) {u : Uuid} {s : BalanceRow}
    (hs : (u, s) ∈ b.balances) :
    ∃ p ∈ journal.postings, ∃ s₀, Uuid.parse? p.accountId.value = some u ∧ db.balances.get? u = some s₀ ∧
      b.locked.get? p.accountId.value = some s₀ ∧ b.legs.running.get? p.accountId.value = some s := by
  obtain ⟨⟨k, s'⟩, he, hk, hs'⟩ := Forall₂.exists_left h.balances hs
  obtain rfl : s = s' := hs'
  have hrun : b.legs.running.get? k = some s := Keyed.get?_eq_some_iff.2 he
  have hkeys := LedgerPoster.postLegs_keys h.legs
  obtain ⟨s₀, hs₀⟩ := Keyed.mem_keys_iff.1 (hkeys ▸ Keyed.mem_keys_iff.2 ⟨s, hrun⟩)
  obtain ⟨p, hp, rfl⟩ := h.locked k s₀ hs₀
  obtain ⟨u', row, hu', hrow, hlock⟩ := h.lock p hp
  obtain rfl : u' = u := Option.some.inj (hu'.symm.trans hk)
  obtain rfl : row = s₀ := Option.some.inj (hlock.symm.trans hs₀)
  exact ⟨p, hp, row, hk, hrow, hs₀, hrun⟩

/-- Each row of a booking belongs to one of its legs. -/
theorem Booking.Valid.row_leg (hv : b.Valid sha256 db journal currency options) {row : PostingRow} (hrow : row ∈ b.rows) :
    row.transactionId = b.id ∧ ∃ p ∈ journal.postings, Uuid.parse? p.accountId.value = some row.accountId ∧
      row.amount = p.amount.amount := by
  obtain ⟨v, hm, htid, haid, hamount, -⟩ := Forall₂.exists_left hv.rows hrow
  obtain ⟨p, hp, _, -, rfl⟩ := exists_of_mem_zipWith hm
  exact ⟨Option.some.inj (htid.symm.trans hv.id), p, hp, haid, hamount⟩

/-- A row no leg names keeps its balance. -/
theorem Booked.untouched (hb : Booked db db' b) (hv : b.Valid sha256 db journal currency options) {u : Uuid}
    (hu : ∀ p ∈ journal.postings, Uuid.parse? p.accountId.value ≠ some u) :
    db'.balances.get? u = db.balances.get? u := by
  rw [hb.balances, Keyed.get?_setAll, Keyed.latest_eq_none_iff.2, Option.none_or]
  intro s hs
  obtain ⟨p, hp, _, hpu, _⟩ := hv.updated hs
  exact hu p hp hpu

/-- A row ends with what is running under the text of its legs. -/
theorem Booked.touched (hb : Booked db db' b) (hv : b.Valid sha256 db journal currency options)
    (hone : OneSpelling journal.postings) {p : Posting} {u : Uuid} (hp : p ∈ journal.postings)
    (hu : Uuid.parse? p.accountId.value = some u) :
    ∃ s s', db.balances.get? u = some s ∧ b.locked.get? p.accountId.value = some s ∧
      b.legs.running.get? p.accountId.value = some s' ∧ db'.balances.get? u = some s' := by
  obtain ⟨u', s, hu', hs, hlock⟩ := hv.lock p hp
  obtain rfl : u' = u := Option.some.inj (hu'.symm.trans hu)
  obtain ⟨s', hs', -⟩ := LedgerPoster.postLegs_trail hv.legs hlock
  refine ⟨s, s', hs, hlock, hs', ?_⟩
  rw [hb.balances, Keyed.get?_setAll]
  obtain ⟨w, hw, hkey, hval⟩ := Forall₂.exists_right hv.balances (Keyed.get?_eq_some_iff.1 hs')
  cases hl : Keyed.latest u' b.balances with
  | none =>
    obtain rfl : w.1 = u' := Option.some.inj (hkey.symm.trans hu)
    exact absurd hw (Keyed.latest_eq_none_iff.1 hl w.2)
  | some s'' =>
    obtain ⟨q, hq, _, hqu, -, -, hrun⟩ := hv.updated (Keyed.mem_of_latest hl)
    rw [hone p hp q hq u' hu hqu, hs'] at hrun
    rw [← Option.some.inj hrun]
    rfl

/-- An account a leg names has the booking's currency. -/
theorem Booking.Valid.row_currency (hv : b.Valid sha256 db journal currency options)
    (hcur : journal.currency = currency) {p : Posting} (hp : p ∈ journal.postings) {u : Uuid}
    (hu : Uuid.parse? p.accountId.value = some u) :
    (db.accounts.get? u).map AccountRow.currency = some b.currency := by
  obtain ⟨u', row, c, ⟨hu', hrow⟩, hof, hc⟩ := hv.account p hp
  obtain rfl : u' = u := Option.some.inj (hu'.symm.trans hu)
  have hcode := hv.code
  rw [hcur, ← hc] at hcode
  rcases Currency.of_cases hof with ⟨-, h⟩ | ⟨-, h⟩
  · rw [hrow, Option.map_some]; exact h.symm.trans hcode
  · rw [h] at hcode; cases hcode

theorem Booking.Valid.balances_nodup (hv : b.Valid sha256 db journal currency options)
    (hone : OneSpelling journal.postings) : (b.balances.map Prod.fst).Nodup := by
  have hsome : b.legs.running.keys.map Uuid.parse? = (b.balances.map Prod.fst).map some := by
    rw [Keyed.keys, List.map_map, List.map_map]
    exact Forall₂.map_eq hv.balances fun _ _ _ _ h => h.1
  have hnodup : (b.legs.running.keys.map Uuid.parse?).Nodup := by
    refine List.Nodup.map_on (fun k hk k' hk' heq => ?_) b.legs.running.nodup
    obtain ⟨p, hp, rfl⟩ := hv.mem_running.1 hk
    obtain ⟨q, hq, rfl⟩ := hv.mem_running.1 hk'
    obtain ⟨u, _, hu, -⟩ := hv.lock p hp
    exact hone q hq p hp u (heq.symm.trans hu) hu
  rw [hsome] at hnodup
  exact hnodup.of_map _

/-- **A booking neither makes nor loses money.** -/
theorem Booked.total_eq (hb : Booked db db' b) (hv : b.Valid sha256 db journal currency options)
    (hcur : journal.currency = currency) (hone : OneSpelling journal.postings) (code : String) :
    total db' code = total db code := by
  let held : Uuid → BalanceRow → Int := fun u s =>
    if (db.accounts.get? u).map AccountRow.currency = some code then s.balance else 0
  have hnodup := hv.balances_nodup hone
  -- each updated row moves by the legs under its text, if it is in the currency at all
  have hrow : ∀ e ∈ b.legs.running.entries, ∀ w ∈ b.balances, Updated e w →
      (if b.currency = code then LedgerPoster.moved journal.postings e.1 else 0) =
        held w.1 w.2 - ((db.balances.get? w.1).map (held w.1)).getD 0 := by
    intro e he w hw hup
    obtain ⟨p, hp, s, hu, hs, hlock, hrun⟩ := hv.updated (s := w.2) hw
    obtain ⟨q, hq, hqe⟩ := hv.mem_running.1 (List.mem_map_of_mem (f := Prod.fst) he)
    have htext : e.1 = p.accountId.value := hqe ▸ hone p hp q hq w.1 hu (hqe ▸ hup.1)
    have hmoved := LedgerPoster.postLegs_moved hv.legs hlock hrun
    simp only [held, hv.row_currency hcur hp hu, hs, htext, Option.map_some, Option.getD_some, Option.some.injEq]
    split <;> omega
  have hpresent : ∀ w ∈ b.balances, (db.balances.get? w.1).isSome := by
    intro w hw
    obtain ⟨p, hp, s, hu, hs, -⟩ := hv.updated (s := w.2) hw
    rw [hs]; rfl
  have hsum := Keyed.sum_setAll (f := held) hnodup hpresent
  rw [← Forall₂.map_eq hv.balances hrow] at hsum
  have hzero : (b.legs.running.entries.map fun e =>
      if b.currency = code then LedgerPoster.moved journal.postings e.1 else 0).sum = 0 := by
    split
    · have hmoved : (b.legs.running.keys.map (LedgerPoster.moved journal.postings)).sum = 0 := by
        have hkeys : b.legs.running.keys.Nodup := b.legs.running.nodup
        rw [LedgerPoster.sum_moved hkeys fun p hp => hv.mem_running.2 ⟨p, hp, rfl⟩, journal.balanced]
      rw [Keyed.keys, List.map_map] at hmoved
      exact hmoved
    · simp
  rw [total, total, hb.accounts, hb.balances]
  rw [hzero, Int.add_zero] at hsum
  exact hsum

end MiniLedger
