import MiniLedger.Ledger.Audit
import MiniLedger.Ledger.Disciplined
import MiniLedger.Ledger.Recorded

/-!
# Reversals undo

A reversal reads the stored legs of a transaction and books them negated, and the journal
it books names the transaction it reverses. Journals only ever name older ones, so the
links form chains, along which the effects cancel in pairs.
-/

namespace MiniLedger

open Collections Sessions

variable {sha256 : String → String} {db db' t : Tables} {w : postgres.World}

/-- What the transaction `id` moves on the account `u`. -/
def Tables.effect (t : Tables) (id u : Uuid) : Int :=
  (((t.postingsOf id).filter fun p => p.accountId = u).map PostingRow.amount).sum

/-- The transaction `r` reverses the transaction `id`. -/
def Reverses (t : Tables) (r id : Uuid) : Prop :=
  ∃ row, t.journals.get? r = some row ∧ row.reversesTransactionId = some id

theorem reversalOf_none {id : Uuid} (h : t.reversalOf id = none) (r : Uuid) : ¬ Reverses t r id := by
  rintro ⟨row, hrow, hrev⟩
  rw [Tables.reversalOf, Option.map_eq_none_iff] at h
  exact List.find?_eq_none.1 h _ (Keyed.get?_eq_some_iff.1 hrow) (decide_eq_true hrev)

/-! ## One booking -/

section

variable {journal : JournalTransaction} {currency : Currency} {options : PostOptions} {b : Booking}

/-- The rows of a booking move on an account what its legs move under the account's text. -/
theorem Booking.Valid.rows_moved (hv : b.Valid sha256 db journal currency options) (hid : Canonical journal.id)
    (hc : ∀ p ∈ journal.postings, Canonical p.accountId.value) (u : Uuid) :
    ((b.rows.filter fun p => p.accountId = u).map PostingRow.amount).sum = LedgerPoster.moved journal.postings u.text := by
  have hentries := rows_entries hv.rows (fun v hm => by
    obtain ⟨q, hq, _, -, rfl⟩ := exists_of_mem_zipWith hm
    exact ⟨hid, hc q hq⟩) u
  have hsum := congrArg (fun es : List ChainEntry => (es.map fun e => e.content.amount).sum) hentries
  simp only [List.map_map] at hsum
  rw [← LedgerPoster.entriesOf_sum (LedgerPoster.postLegs_length hv.legs), LedgerPoster.entriesOf, List.map_map]
  exact hsum

/-- A balance row moves by the rows of the booking on it. -/
theorem Booked.balance_moved (hb : Booked db db' b) (hv : b.Valid sha256 db journal currency options)
    (hid : Canonical journal.id) (hc : ∀ p ∈ journal.postings, Canonical p.accountId.value) {u : Uuid} {s : BalanceRow}
    (hs : db.balances.get? u = some s) : ∃ s', db'.balances.get? u = some s' ∧
      s'.balance = s.balance + ((b.rows.filter fun p => p.accountId = u).map PostingRow.amount).sum := by
  rw [hv.rows_moved hid hc]
  by_cases hleg : ∃ p ∈ journal.postings, Uuid.parse? p.accountId.value = some u
  · obtain ⟨p, hp, hu⟩ := hleg
    obtain ⟨s₀, s', hs₀, hlock, hrun, hs'⟩ := hb.touched hv (oneSpelling_of_canonical hc) hp hu
    obtain rfl : s = s₀ := Option.some.inj (hs.symm.trans hs₀)
    refine ⟨s', hs', ?_⟩
    rw [LedgerPoster.postLegs_moved hv.legs hlock hrun, ← Uuid.text_of_canonical (hc p hp) hu]
  · have hnone : ∀ p ∈ journal.postings, p.accountId.value ≠ u.text := by
      intro p hp heq
      exact hleg ⟨p, hp, heq ▸ u.parse?_text⟩
    refine ⟨s, ?_, ?_⟩
    · rw [hb.untouched hv fun p hp hu => hleg ⟨p, hp, hu⟩, hs]
    · rw [LedgerPoster.moved_untouched hnone, Int.add_zero]

/-- The legs of a reversal move back what the transaction moved. -/
theorem moved_compensating {target id : Uuid} {original : OriginalTransaction} (ho : db.original target = some original)
    (hcomp : Compensated original id currency journal) (u : Uuid) :
    LedgerPoster.moved journal.postings u.text = -db.effect target u := by
  obtain ⟨row, -, rfl⟩ := Tables.original_eq_some ho
  have hlegs : journal.postings = (Tables.bySeq (db.postingsOf target)).map fun p =>
      ⟨⟨p.accountId.text⟩, ⟨-p.amount, currency⟩⟩ := by
    rw [hcomp.postings, ReverseService.compensatingLegs, List.map_map]
    rfl
  have hperm : (Tables.bySeq (db.postingsOf target)).Perm (db.postingsOf target) := List.perm_insertionSort _ _
  have hfilter : (fun p : PostingRow => decide (p.accountId.text = u.text)) = fun p => decide (p.accountId = u) :=
    funext fun p => decide_eq_decide.2 ⟨Uuid.ext, congrArg Uuid.text⟩
  have hmoved : LedgerPoster.moved journal.postings u.text =
      (((Tables.bySeq (db.postingsOf target)).filter fun p => p.accountId.text = u.text).map fun p => -p.amount).sum := by
    rw [LedgerPoster.moved, hlegs, List.filter_map, List.map_map]
    rfl
  rw [hmoved, hfilter, ((hperm.filter _).map _).sum_eq, Tables.effect, List.sum_neg, List.map_map]
  rfl

/-- A booking adds its own link, and no other. -/
theorem Booked.reverses (hb : Booked db db' b) (hfresh : db.journals.get? b.id = none) {r id : Uuid} :
    Reverses db' r id ↔ Reverses db r id ∨ (r = b.id ∧ b.reverses = some id) := by
  unfold Reverses
  rw [hb.journals]
  by_cases hr : r = b.id
  · subst hr
    rw [Keyed.get?_set_self, hfresh]
    simp
  · rw [Keyed.get?_set_of_ne _ _ hr]
    simp [hr]

theorem Booked.effect_old (hv : b.Valid sha256 db journal currency options) (hb : Booked db db' b) {id : Uuid}
    (hid : id ≠ b.id) (u : Uuid) : db'.effect id u = db.effect id u := by
  rw [Tables.effect, hb.postingsOf hv, if_neg hid, List.append_nil]
  rfl

end

/-! ## The links -/

/-- What the links between journals satisfy. -/
structure Undone (t : Tables) : Prop where
  /-- a journal names an older one -/
  earlier : ∀ r id, Reverses t r id → t.journals.keys.idxOf id < t.journals.keys.idxOf r
  once : ∀ r r' id, Reverses t r id → Reverses t r' id → r = r'
  negates : ∀ r id, Reverses t r id → ∀ u, t.effect r u = -t.effect id u

theorem Undone.mem (h : Undone t) {r id : Uuid} (hr : Reverses t r id) : id ∈ t.journals.keys :=
  List.idxOf_lt_length_iff.1 ((h.earlier r id hr).trans_le List.idxOf_le_length)

theorem Undone.acyclic (h : Undone t) (r : Uuid) : ¬ Relation.TransGen (Reverses t) r r := by
  have up : ∀ id, Relation.TransGen (Reverses t) r id → t.journals.keys.idxOf id < t.journals.keys.idxOf r := by
    intro id hpath
    induction hpath with
    | single hlink => exact h.earlier r _ hlink
    | tail _ hlink ih => exact (h.earlier _ _ hlink).trans ih
  intro hcycle
  exact Nat.lt_irrefl _ (up r hcycle)

section

variable {journal : JournalTransaction} {currency : Currency} {options : PostOptions} {b : Booking}

/-- A booking that reverses nothing keeps the links. -/
theorem Undone.booked (h : Undone db) (hv : b.Valid sha256 db journal currency options) (hb : Booked db db' b)
    (hnew : ∀ id, b.reverses = some id → id ∈ db.journals.keys ∧ (∀ r, ¬ Reverses db r id) ∧
      ∀ u, db'.effect b.id u = -db.effect id u) : Undone db' := by
  have hnotin : b.id ∉ db.journals.keys := Keyed.get?_eq_none_iff.1 hv.fresh
  have hkeys : db'.journals.keys = db.journals.keys ++ [b.id] := by
    rw [hb.journals, Keyed.keys, Keyed.entries_set_of_none hv.fresh, List.map_append]
    rfl
  have hold : ∀ {r id : Uuid}, Reverses db r id → r ≠ b.id ∧ r ∈ db.journals.keys := by
    rintro r id ⟨row, hrow, -⟩
    have hmem : r ∈ db.journals.keys := Keyed.mem_keys_iff.2 ⟨row, hrow⟩
    exact ⟨fun heq => hnotin (heq ▸ hmem), hmem⟩
  constructor
  · intro r id hr
    rw [hkeys]
    rcases (hb.reverses hv.fresh).1 hr with hr | ⟨rfl, hrev⟩
    · rw [List.idxOf_append_of_mem (h.mem hr), List.idxOf_append_of_mem (hold hr).2]
      exact h.earlier r id hr
    · obtain ⟨hmem, -, -⟩ := hnew id hrev
      rw [List.idxOf_append_of_mem hmem, List.idxOf_append_of_notMem hnotin]
      exact (List.idxOf_lt_length_iff.2 hmem).trans_le (Nat.le_add_right _ _)
  · intro r r' id hr hr'
    rcases (hb.reverses hv.fresh).1 hr with hr | ⟨rfl, hrev⟩ <;>
      rcases (hb.reverses hv.fresh).1 hr' with hr' | ⟨rfl, hrev'⟩
    · exact h.once r r' id hr hr'
    · exact absurd hr ((hnew id hrev').2.1 r)
    · exact absurd hr' ((hnew id hrev).2.1 r')
    · rfl
  · intro r id hr u
    have hne : ∀ {id}, id ∈ db.journals.keys → id ≠ b.id := fun hmem heq => hnotin (heq ▸ hmem)
    rcases (hb.reverses hv.fresh).1 hr with hr | ⟨rfl, hrev⟩
    · rw [hb.effect_old hv (hold hr).1, hb.effect_old hv (hne (h.mem hr))]
      exact h.negates r id hr u
    · obtain ⟨hmem, -, heffect⟩ := hnew id hrev
      rw [heffect u, hb.effect_old hv (hne hmem)]

/-- What a reversal has booked. -/
theorem Booked.undoes {target id : Uuid} {original : OriginalTransaction} (hr : Recorded db)
    (ho : db.original target = some original) (hcomp : Compensated original id currency journal)
    (hv : b.Valid sha256 db journal currency options) (hb : Booked db db' b) (u : Uuid) :
    db'.effect b.id u = -db.effect target u := by
  have hid : Canonical journal.id := hcomp.journal_id ▸ id.canonical_text
  rw [Tables.effect, hb.postingsOf hv, if_pos rfl, hr.postingsOf_fresh hv.fresh, List.nil_append,
    hv.rows_moved hid hcomp.canonical, moved_compensating ho hcomp]

end

theorem Undone.commit {request : Request} {r : Reply} {ws : List Write} (h : Undone db) (hr : Recorded db)
    (hc : Committed sha256 db request r ws) : Undone (postgres.view db ws) := by
  cases hc with
  | opened => exact ⟨h.earlier, h.once, h.negates⟩
  | replayed => exact h
  | transferred currency amount journal b hch hv =>
    refine h.booked hv (booked_transfer ..) fun id hrev => ?_
    have htarget := hv.target
    rw [hrev] at htarget
    exact htarget.elim
  | reversed target original currency journal b _ ho hcomp hunreversed hv hrev =>
    refine h.booked hv (booked_writes ..) fun id hid => ?_
    obtain rfl : target = id := Option.some.inj (hrev.symm.trans hid)
    refine ⟨?_, reversalOf_none hunreversed, (booked_writes db b).undoes hr ho hcomp hv⟩
    obtain ⟨row, hrow, -⟩ := Tables.original_eq_some ho
    exact Keyed.mem_keys_iff.2 ⟨row, hrow⟩

theorem undone_migrated (ids : WorldIds) (createdAt : Nat) (entrySize : String → Nat) : Undone (migrated ids createdAt entrySize).db := by
  have none : ∀ r id, ¬ Reverses (migrated ids createdAt entrySize).db r id := by
    rintro r id ⟨row, hrow, -⟩
    cases hrow
  exact ⟨fun r id hr => absurd hr (none r id), fun r _ id hr => absurd hr (none r id),
    fun r id hr => absurd hr (none r id)⟩

/-! ## The step of a reversal -/

/-- From `t` to `t'` the transaction `target` was undone, and nothing older was touched. -/
structure Undoes (t t' : Tables) (target : Uuid) : Prop where
  balances : ∀ u s, t.balances.get? u = some s →
    ∃ s', t'.balances.get? u = some s' ∧ s'.balance = s.balance - t.effect target u
  noBalance : ∀ u, t.balances.get? u = none → t'.balances.get? u = none
  journals : ∃ r row, t'.journals.entries = t.journals.entries ++ [(r, row)] ∧ row.reversesTransactionId = some target
  postings : t.postings <+: t'.postings

theorem Committed.undoes {transactionId : String} {target id : Uuid} {receipt : TransferReceipt} {ws : List Write}
    (hc : Committed sha256 db (.reverse transactionId id) (.reversed (.ok receipt)) ws)
    (htarget : Uuid.parse? transactionId = some target) : Undoes db (postgres.view db ws) target := by
  cases hc with
  | reversed target' original currency journal b hparsed ho hcomp _ hv hrev =>
    obtain rfl : target' = target := Option.some.inj (hparsed.symm.trans htarget)
    have hb := booked_writes db b
    have hid : Canonical journal.id := hcomp.journal_id ▸ id.canonical_text
    refine ⟨fun u s hs => ?_, fun u hnone => ?_, ⟨b.id, ⟨b.currency, b.reverses⟩, ?_, hrev⟩, ?_⟩
    · obtain ⟨s', hs', hbalance⟩ := hb.balance_moved hv hid hcomp.canonical hs
      rw [hv.rows_moved hid hcomp.canonical, moved_compensating ho hcomp] at hbalance
      exact ⟨s', hs', by omega⟩
    · rw [hb.untouched hv, hnone]
      intro p hp hu
      obtain ⟨v, s, hv', hs, -⟩ := hv.lock p hp
      obtain rfl : v = u := Option.some.inj (hv'.symm.trans hu)
      rw [hnone] at hs
      cases hs
    · rw [hb.journals, Keyed.entries_set_of_none hv.fresh]
    · rw [hb.postings]
      exact List.prefix_append _ _

theorem Reachable.undone {P : Tables → Request → Prop} (h : Reachable sha256 P w) : Undone w.db := by
  obtain ⟨ids, createdAt, entrySize, hs⟩ := h
  exact (hs.invariant (motive := fun t => Recorded t ∧ Undone t)
    ⟨recorded_migrated ids createdAt entrySize, undone_migrated ids createdAt entrySize⟩ fun _ hi hc => ⟨hi.1.commit hc, hi.2.commit hi.1 hc⟩).2

/-- **Reversals undo exactly.** In every interleaving a transaction has at most one
reversal, reversals never go in a circle, a reversal's effect is the negated one of what it
reverses, the effects along a chain of reversals add up to the first one or to nothing, and
the step with which a reversal returns takes the effect off every balance. -/
theorem reversals_undo {ι : Type} [DecidableEq ι] [Fintype ι] {requests : ι → Request} {w : postgres.World}
    {c : Config postgres ι Reply} (hw : Reachable sha256 admitted w)
    (h : Reaches (Config.start w fun i => (requests i).call sha256) c) :
    (∀ r r' id, Reverses c.db r id → Reverses c.db r' id → r = r') ∧
      (∀ r, ¬ Relation.TransGen (Reverses c.db) r r) ∧
      (∀ r id, Reverses c.db r id → ∀ u, c.db.effect r u = -c.db.effect id u) ∧
      (∀ id chain u, (id :: chain).IsChain (fun id r => Reverses c.db r id) →
        ((id :: chain).map fun r => c.db.effect r u).sum =
          if (id :: chain).length % 2 = 1 then c.db.effect id u else 0) ∧
      ∀ i d transactionId target id receipt, Step c i d → requests i = .reverse transactionId id →
        Uuid.parse? transactionId = some target → d.phase i = .done (.ok (.reversed (.ok receipt))) →
        Undoes c.db d.db target := by
  have kept : ∀ {db : Tables} {request : Request} {r : Reply} {ws : List Write}, Recorded db ∧ Undone db →
      Committed sha256 db request r ws → Recorded (postgres.view db ws) ∧ Undone (postgres.view db ws) :=
    fun hi hc => ⟨hi.1.commit hc, hi.2.commit hi.1 hc⟩
  obtain ⟨-, hundone⟩ :=
    reaches_invariant (motive := fun t => Recorded t ∧ Undone t) hw h ⟨hw.recorded, hw.undone⟩ kept
  refine ⟨hundone.once, hundone.acyclic, hundone.negates, fun id chain u hchain => ?_, ?_⟩
  · exact sum_alternating (fun id r hr => hundone.negates r id hr u) hchain
  · intro i d transactionId target id receipt hstep hrequest htarget hdone
    obtain ⟨ws, hc, rfl⟩ := step_returns hw h hstep hdone nofun
    rw [hrequest] at hc
    exact hc.undoes htarget

/-! ## A run on fixed inputs -/

namespace Sample

def reversingDigests : List (String × String) :=
  fundingDigests ++
    [("|".intercalate ["5606763eb3120fd42b4c43ccad70cd7a244b40cc02b375f7ac667287f7d4d6fa", second.text, usd.text,
          "100", "0"],
        "c5b84bc21ec9c398489c333774977eab80110e79586bad6d179c04a9b99abd66"),
      ("|".intercalate ["f8ec3841310aa3d2ace6997273f3b833bb4c8334d8a31e6b1d1fa8e7839da3ef", second.text, alice.text,
          "-100", "0"],
        "16b18a966738920befca70770f697a3a5fcbb39accb84480b53d320c6c40d3fb"),
      ("|".intercalate ["c5b84bc21ec9c398489c333774977eab80110e79586bad6d179c04a9b99abd66", third.text, usd.text,
          "-100", "-100"],
        "e08cced913c04d7c8e9df16aa307ceffaf88a6d7816cbfdb6d3ec1a32e80b4d4"),
      ("|".intercalate ["16b18a966738920befca70770f697a3a5fcbb39accb84480b53d320c6c40d3fb", third.text, alice.text,
          "100", "100"],
        "9163ad07cafde6691e8b4d9c4e2e3b801539b4627019e3f4eda4a0345d395741")]

/-- The deposit is reversed, then its reversal. -/
def backAndForth : Fin 2 → Request
  | 0 => .reverse deposit.text second
  | 1 => .reverse second.text third

def reversibleWorld : postgres.World := after reversingDigests [openAlice, fundAlice]

end Sample

theorem reversals_undo_deposit : ∃ c : Config postgres (Fin 2) Reply,
    (Config.start Sample.reversibleWorld fun i => (Sample.backAndForth i).call (Sample.digest Sample.reversingDigests)).play
      (List.replicate 15 (.advance Sample.one) ++ List.replicate 15 (.advance Sample.other)) = some c ∧
    Reverses c.db Sample.second Sample.deposit ∧ Reverses c.db Sample.third Sample.second ∧
    ∀ u, ([Sample.deposit, Sample.second, Sample.third].map fun r => c.db.effect r u).sum = c.db.effect Sample.deposit u := by
  have h : ((Config.start Sample.reversibleWorld fun i =>
      (Sample.backAndForth i).call (Sample.digest Sample.reversingDigests)).play
      (List.replicate 15 (.advance Sample.one) ++ List.replicate 15 (.advance Sample.other))).any
      (fun c => decide ((c.db.journals.get? Sample.second).map JournalRow.reversesTransactionId = some (some Sample.deposit) ∧
        (c.db.journals.get? Sample.third).map JournalRow.reversesTransactionId = some (some Sample.second))) = true := by
    decide +kernel
  obtain ⟨c, hplay, hlinks⟩ := (Option.any_eq_true _ _).1 h
  obtain ⟨hsecond, hthird⟩ := of_decide_eq_true hlinks
  have hsecond : Reverses c.db Sample.second Sample.deposit := Option.map_eq_some_iff.1 hsecond
  have hthird : Reverses c.db Sample.third Sample.second := Option.map_eq_some_iff.1 hthird
  obtain ⟨-, -, -, hchains, -⟩ := reversals_undo (Sample.reachable_after (by decide)) (Reaches.of_play (.refl _) hplay)
  refine ⟨c, hplay, hsecond, hthird, fun u => ?_⟩
  have hchain : [Sample.deposit, Sample.second, Sample.third].IsChain fun id r => Reverses c.db r id :=
    .cons_cons hsecond (.cons_cons hthird (.singleton _))
  exact hchains Sample.deposit [Sample.second, Sample.third] u hchain

end MiniLedger
