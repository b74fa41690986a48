import MiniLedger.Ledger.Booked
import MiniLedger.Ledger.Runs

/-!
# What a transfer does to the ledger

The exact effect of a posted transfer and everything it leaves alone. It rests on the two
ids naming two rows: `transfer` compares their texts, the rows are found by value, and two
spellings of one id pass the comparison.
-/

namespace MiniLedger

open Collections

variable {sha256 : String → String} {db db' : Tables} {w : postgres.World}

/-- `amount` has moved between two rows, in one new journal of two postings, and the rest
of the tables is as it was. -/
structure TransferEffect (t t' : Tables) (from_ to_ id : Uuid) (amount : Int) : Prop where
  distinct : from_ ≠ to_
  debited : ∃ s s', t.balances.get? from_ = some s ∧ t'.balances.get? from_ = some s' ∧ s'.balance = s.balance - amount
  credited : ∃ s s', t.balances.get? to_ = some s ∧ t'.balances.get? to_ = some s' ∧ s'.balance = s.balance + amount
  balances : ∀ u, u ≠ from_ → u ≠ to_ → t'.balances.get? u = t.balances.get? u
  accounts : t'.accounts = t.accounts
  journals : ∃ currency, t'.journals.entries = t.journals.entries ++ [(id, ⟨currency, none⟩)]
  postings : ∃ p q, t'.postings = t.postings ++ [p, q] ∧
    p.transactionId = id ∧ p.accountId = from_ ∧ p.amount = -amount ∧
    (t'.balances.get? from_).map BalanceRow.balance = some p.balanceAfter ∧
    q.transactionId = id ∧ q.accountId = to_ ∧ q.amount = amount ∧
    (t'.balances.get? to_).map BalanceRow.balance = some q.balanceAfter
  keys : ∀ key row, t.keys.get? key = some row → t'.keys.get? key = some row
  outbox : ∃ event, t'.outbox = t.outbox ++ [event]
  totals : ∀ currency, total t' currency = total t currency

theorem Checked.oneSpelling {input : TransferInput} {id : Uuid} {currency : Currency} {amount : Nat}
    {journal : JournalTransaction} (h : Checked input id currency amount journal)
    (hne : printed input.from_ ≠ printed input.to_) : OneSpelling journal.postings := by
  rw [h.postings]
  intro p hp q hq u hu hu'
  have heq := Uuid.parse?_injective hu hu'
  rcases List.mem_pair.1 hp with rfl | rfl <;> rcases List.mem_pair.1 hq with rfl | rfl
  · rfl
  · exact absurd heq hne
  · exact absurd heq.symm hne
  · rfl

/-- The two turns of `postLegs` on the legs of a transfer. -/
theorem postLegs_transfer {currency : Currency} {floors : Keyed String (Option Int)} {transactionId from_ to_ : String}
    {amount : Nat} {running : Keyed String BalanceRow} {legs : LedgerPoster.Legs} (hne : from_ ≠ to_)
    (h : LedgerPoster.postLegs sha256 currency floors transactionId (transferLegs from_ to_ amount currency) running =
      .ok legs) :
    ∃ l l' s s', legs.lines = [l, l'] ∧ legs.running.get? from_ = some s ∧ s.balance = l.balanceAfter ∧
      legs.running.get? to_ = some s' ∧ s'.balance = l'.balanceAfter := by
  obtain ⟨_, s, rest, -, -, -, -, hr, rfl⟩ := LedgerPoster.postLegs_cons h
  obtain ⟨_, s', rest', -, -, -, -, hr', rfl⟩ := LedgerPoster.postLegs_cons hr
  cases hr'
  refine ⟨_, _, s, s', rfl, ?_, rfl, Keyed.get?_set_self .., rfl⟩
  exact (Keyed.get?_set_of_ne _ _ hne).trans (Keyed.get?_set_self ..)

theorem moved_transferLegs {from_ to_ : String} (hne : from_ ≠ to_) (amount : Nat) (currency : Currency) :
    LedgerPoster.moved (transferLegs from_ to_ amount currency) from_ = -amount ∧
      LedgerPoster.moved (transferLegs from_ to_ amount currency) to_ = amount := by
  simp [transferLegs, LedgerPoster.moved, debit, credit, hne, hne.symm]

/-- A booked transfer between two ids has its effect. -/
theorem Checked.effect {input : TransferInput} {id : Uuid} {currency : Currency} {amount : Nat}
    {journal : JournalTransaction} {options : PostOptions} {b : Booking}
    (h : Checked input id currency amount journal) (hv : b.Valid sha256 db journal currency options)
    (hopt : options.reversesTransactionId = none) (hb : Booked db db' b)
    (hkeys : ∀ key row, db.keys.get? key = some row → db'.keys.get? key = some row)
    (hne : printed input.from_ ≠ printed input.to_) :
    ∃ u v, Uuid.parse? input.from_ = some u ∧ Uuid.parse? input.to_ = some v ∧ TransferEffect db db' u v id amount := by
  have hone := h.oneSpelling hne
  have hdebit : debit input.from_ amount currency ∈ journal.postings := by
    rw [h.postings]; exact List.mem_cons_self ..
  have hcredit : credit input.to_ amount currency ∈ journal.postings := by
    rw [h.postings]; exact List.mem_cons_of_mem _ (List.mem_cons_self ..)
  obtain ⟨u, -, hu, -, -⟩ := hv.lock _ hdebit
  obtain ⟨v, -, hv', -, -⟩ := hv.lock _ hcredit
  have huv : u ≠ v := by
    rintro rfl
    exact hne (Uuid.parse?_injective hu hv')
  have hid : b.id = id := h.id_of_parse hv.id
  have hrev : b.reverses = none := by
    have ht := hv.target
    rw [hopt] at ht
    cases hr : b.reverses with
    | none => rfl
    | some r => rw [hr] at ht; exact ht.elim
  obtain ⟨s, s', hs, hlock, hrun, hs'⟩ := hb.touched hv hone hdebit hu
  obtain ⟨t, t', ht, hlock', hrun', ht'⟩ := hb.touched hv hone hcredit hv'
  have hmoved := LedgerPoster.postLegs_moved hv.legs hlock hrun
  have hmoved' := LedgerPoster.postLegs_moved hv.legs hlock' hrun'
  have hlegs := hv.legs
  rw [h.postings] at hlegs hmoved hmoved'
  obtain ⟨l, l', r, r', hlines, hr, hrb, hr', hrb'⟩ := postLegs_transfer h.distinct hlegs
  obtain rfl : s' = r := Option.some.inj (hrun.symm.trans hr)
  obtain rfl : t' = r' := Option.some.inj (hrun'.symm.trans hr')
  have hlegsum := moved_transferLegs h.distinct amount currency
  have hsub : s'.balance = s.balance - amount := by
    rw [hmoved]
    exact (congrArg (s.balance + ·) hlegsum.1).trans (Int.sub_eq_add_neg ..).symm
  have hadd : t'.balance = t.balance + amount := by
    rw [hmoved']
    exact congrArg (t.balance + ·) hlegsum.2
  have hrows := hv.rows
  rw [JournalTransactionsRepository.toPostingRows, h.postings, hlines] at hrows
  obtain ⟨p, _, hp, hrest, hbrows⟩ := List.forall₂_cons_left_iff.1 hrows
  obtain ⟨q, _, hq, hnil, rfl⟩ := List.forall₂_cons_left_iff.1 hrest
  obtain rfl := List.forall₂_nil_left_iff.1 hnil
  obtain ⟨hptid, hpacc, hpamt, hpbal, -, -⟩ := hp
  obtain ⟨hqtid, hqacc, hqamt, hqbal, -, -⟩ := hq
  exact ⟨u, v, hu, hv', {
    distinct := huv
    debited := ⟨s, s', hs, hs', hsub⟩
    credited := ⟨t, t', ht, ht', hadd⟩
    balances := fun x hxu hxv => hb.untouched hv fun p hp hpx => by
      rw [h.postings] at hp
      rcases List.mem_pair.1 hp with rfl | rfl
      · exact hxu (Option.some.inj (hpx.symm.trans hu))
      · exact hxv (Option.some.inj (hpx.symm.trans hv'))
    accounts := hb.accounts
    journals := ⟨b.currency, by rw [hb.journals, Keyed.entries_set_of_none hv.fresh, hid, hrev]⟩
    postings := by
      refine ⟨p, q, by rw [hb.postings, hbrows], h.id_of_parse hptid, Option.some.inj (hpacc.symm.trans hu), hpamt, ?_,
        h.id_of_parse hqtid, Option.some.inj (hqacc.symm.trans hv'), hqamt, ?_⟩
      · rw [hs', Option.map_some, hrb, hpbal]; rfl
      · rw [ht', Option.map_some, hrb', hqbal]; rfl
    keys := hkeys
    outbox := ⟨b.event, hb.outbox⟩
    totals := hb.total_eq hv h.journal_currency hone }⟩

/-- A committed key row is none of the keys a posting transfer writes. -/
theorem transfer_keeps_keys {key : Option String} {fingerprint : String} {b : Booking}
    (hnew : ∀ k ∈ key, db.keys.get? k = none) (k : String) (row : KeyRow) (hk : db.keys.get? k = some row) :
    (postgres.view db (TransferService.writes key fingerprint b)).keys.get? k = some row := by
  rw [view_keys, Keyed.get?_setAll]
  cases key with
  | none => rw [TransferService.writes, b.writes_key]; exact hk
  | some key =>
    have hne : k ≠ key := by
      rintro rfl
      rw [hnew k rfl] at hk
      cases hk
    have hlatest : Keyed.latest k ((TransferService.writes (some key) fingerprint b).filterMap Write.key?) = none := by
      simp [TransferService.writes, Write.key?, b.writes_key, Keyed.latest, hne.symm]
    rw [hlatest, hk]
    rfl

/-- **Exact effect and frame of a transfer.** A transfer that posts moves its amount
between two rows and leaves the rest alone if and only if the two ids are not spellings of
one uuid; of ids with their hyphens, if and only if they differ in more than the case of
their letters. -/
theorem transfer_effect_iff {input : TransferInput} {id : Uuid}
    (hposts : Posts w.db (serve sha256 (.transfer input id) w).2.db) :
    ((∃ u v amount, Uuid.parse? input.from_ = some u ∧ Uuid.parse? input.to_ = some v ∧
      TransferService.parseAmount input.amount = some amount ∧
      TransferEffect w.db (serve sha256 (.transfer input id) w).2.db u v id amount) ↔
    printed input.from_ ≠ printed input.to_) ∧
    (input.Admitted → (printed input.from_ ≠ printed input.to_ ↔ lowerCase input.from_ ≠ lowerCase input.to_)) := by
  refine ⟨⟨?_, fun hne => ?_⟩, fun ha => ?_⟩
  · rintro ⟨u, v, amount, hu, hv, -, heffect⟩ heq
    rw [Uuid.parse?_congr heq, hv] at hu
    exact heffect.distinct (Option.some.inj hu).symm
  · obtain ⟨currency, amount, journal, b, hch, hv, hkeys, -, hdb⟩ := transfer_posts hposts
    obtain ⟨u, v, hu, hv', heffect⟩ := hch.effect hv rfl (booked_transfer ..) (transfer_keeps_keys hkeys) hne
    exact ⟨u, v, amount, hu, hv', hch.parsed, hdb ▸ heffect⟩
  · rw [printed_of_isUuid ha.1, printed_of_isUuid ha.2.1]

/-- The deposit has its effect. -/
theorem transfer_effect_deposit : ∃ u v amount, Uuid.parse? Sample.usd.text = some u ∧
    Uuid.parse? Sample.alice.text = some v ∧ TransferService.parseAmount "100" = some amount ∧
    TransferEffect Sample.openedWorld.db (serve (Sample.digest Sample.fundingDigests)
      (.transfer (Sample.pay Sample.usd.text Sample.alice.text "100" "alice") Sample.deposit)
      Sample.openedWorld).2.db u v Sample.deposit amount := by
  have distinct : lowerCase (Sample.pay Sample.usd.text Sample.alice.text "100" "alice").from_ ≠
      lowerCase (Sample.pay Sample.usd.text Sample.alice.text "100" "alice").to_ := by decide
  obtain ⟨heffect, hspelled⟩ := transfer_effect_iff Sample.deposit_posts
  exact heffect.2 ((hspelled (by decide)).2 distinct)

/-! ## A run on fixed inputs -/

namespace Sample

def respelledDigests : List (String × String) :=
  fundingDigests ++
    [("|".intercalate ["alice", alice.text, aliceUpper, "25", "USD"],
        "0f06e74ad73a73e2708d8cf82a323e0d2e2cebe554d62344912b935b92e460a2"),
      ("|".intercalate ["f8ec3841310aa3d2ace6997273f3b833bb4c8334d8a31e6b1d1fa8e7839da3ef", second.text, alice.text,
          "-25", "75"],
        "8afa10e9c772af953453406bfe5586244a773f021148e58368e48c79535a38c1"),
      ("|".intercalate ["f8ec3841310aa3d2ace6997273f3b833bb4c8334d8a31e6b1d1fa8e7839da3ef", second.text, aliceUpper,
          "25", "125"],
        "e526b6856f50421fc97da6e22de617b2b40787b30f14b46040828f90688dd9d9")]

/-- Alice pays herself, under the other spelling of her id. -/
def respelledTransfer : TransferInput := pay alice.text aliceUpper "25" "alice"

def respelledWorld : postgres.World := after respelledDigests [openAlice, fundAlice]

end Sample

/-- The update of the debited text overwrites that of the credited one: money is lost. -/
theorem respelled_transfer_loses_money :
    Reachable (Sample.digest Sample.respelledDigests) admitted Sample.respelledWorld ∧
      Sample.respelledTransfer.Admitted ∧
      Posts Sample.respelledWorld.db (serve (Sample.digest Sample.respelledDigests)
        (.transfer Sample.respelledTransfer Sample.second) Sample.respelledWorld).2.db ∧
      total (serve (Sample.digest Sample.respelledDigests)
        (.transfer Sample.respelledTransfer Sample.second) Sample.respelledWorld).2.db "USD" ≠
        total Sample.respelledWorld.db "USD" := by
  have h : Sample.respelledWorld.db.journals.get? Sample.second = none ∧
      ((serve (Sample.digest Sample.respelledDigests) (.transfer Sample.respelledTransfer Sample.second)
        Sample.respelledWorld).2.db.journals.get? Sample.second).isSome ∧
      total (serve (Sample.digest Sample.respelledDigests)
        (.transfer Sample.respelledTransfer Sample.second) Sample.respelledWorld).2.db "USD" ≠
        total Sample.respelledWorld.db "USD" := by decide +kernel
  exact ⟨Sample.reachable_after (by decide), by decide, ⟨Sample.second, h.1, h.2.1⟩, h.2.2⟩

end MiniLedger
