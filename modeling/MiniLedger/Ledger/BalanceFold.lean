import Mathlib.Algebra.Order.BigOperators.Group.List
import MiniLedger.Ledger.Booked
import MiniLedger.Ledger.Refusals
import MiniLedger.Ledger.Runs

/-!
# The posting loop and the plain fold

`foldByAccount` adds up the legs of each account with no tables at all. The loop of `post`
computes the same sums on top of the locked balances and refuses the journal at the first
leg that goes below a floor; what is left for the database to refuse is a number its
columns cannot hold, or a statement of more parameters than it takes.
-/

namespace MiniLedger

open Collections Sessions

def foldByAccount (postings : List Posting) : Keyed String Int :=
  postings.foldl (fun balances posting =>
    balances.set posting.accountId.value ((balances.get? posting.accountId.value).getD 0 + posting.amount.amount))
    Keyed.empty

/-- The fold, started on other balances: each touched account gains what its legs move. -/
theorem fold_get? (postings : List Posting) (start : Keyed String Int) (k : String) :
    (postings.foldl (fun balances posting =>
      balances.set posting.accountId.value ((balances.get? posting.accountId.value).getD 0 + posting.amount.amount))
      start).get? k =
      if ∃ p ∈ postings, p.accountId.value = k then some ((start.get? k).getD 0 + LedgerPoster.moved postings k)
      else start.get? k := by
  induction postings generalizing start with
  | nil => simp
  | cons p ps ih =>
    rw [List.foldl_cons, ih]
    by_cases hk : p.accountId.value = k
    · subst hk
      have hhere : ∃ q ∈ p :: ps, q.accountId.value = p.accountId.value := ⟨p, List.mem_cons_self .., rfl⟩
      rw [if_pos hhere, LedgerPoster.moved_cons_self, Keyed.get?_set_self]
      split
      · rw [Option.getD_some, Int.add_assoc]
      · rename_i hnone
        rw [LedgerPoster.moved_untouched fun q hq heq => hnone ⟨q, hq, heq⟩, Int.add_zero]
    · rw [LedgerPoster.moved_cons_of_ne hk, Keyed.get?_set_of_ne _ _ (Ne.symm hk)]
      have hiff : (∃ q ∈ p :: ps, q.accountId.value = k) ↔ ∃ q ∈ ps, q.accountId.value = k := by
        simp [hk]
      simp only [hiff]

theorem foldByAccount_get? {postings : List Posting} {p : Posting} (hp : p ∈ postings) :
    (foldByAccount postings).get? p.accountId.value = some (LedgerPoster.moved postings p.accountId.value) := by
  rw [foldByAccount, fold_get?, if_pos ⟨p, hp, rfl⟩, Keyed.get?_empty, Option.getD_none, Int.zero_add]

/-! ## The specification -/

/-- A leg takes its account below the floor: the balance found plus what the legs up to this
one move on the account. -/
def BelowFloor (t : Tables) (postings : List Posting) : Prop :=
  ∃ i p u row s floor, postings[i]? = some p ∧ Names t p.accountId.value u row ∧ row.overdraftFloor = some floor ∧
    t.balances.get? u = some s ∧ s.balance + LedgerPoster.movedUpTo postings i p.accountId.value < floor

/-- The journal `post` is given on the tables `t`: ids as the database returns them, accounts
of the journal's currency with balance rows, owners checked, an id of its own. -/
structure Postable (t : Tables) (journal : JournalTransaction) (options : PostOptions) : Prop where
  canonical : ∀ p ∈ journal.postings, Canonical p.accountId.value
  account : ∀ p ∈ journal.postings, ∃ u row s, Names t p.accountId.value u row ∧ row.currency ∈ Currency.codes ∧
    journal.currency.code = some row.currency ∧ t.balances.get? u = some s
  owner : ∀ owner, options.requireOwner = some owner → ∀ p ∈ journal.postings, p.amount.amount < 0 →
    ∀ u row, Names t p.accountId.value u row → row.type = .system ∨ row.ownerId = some owner
  fresh : ∃ id, Uuid.parse? journal.id = some id ∧ t.journals.get? id = none
  link : Linkable t options.reversesTransactionId

/-- What `post` leaves when it returns the receipt `r`. -/
structure PostedFold (t t' : Tables) (journal : JournalTransaction) (r : TransferReceipt) : Prop where
  accounts : t'.accounts = t.accounts
  length : r.postings.length = journal.postings.length
  /-- each line of the receipt and each row stored has the sum up to its leg -/
  line : ∀ (i : Nat) (p : Posting) (u : Uuid) (s : BalanceRow), journal.postings[i]? = some p →
    Uuid.parse? p.accountId.value = some u → t.balances.get? u = some s →
    r.postings[i]? = some ⟨p.accountId.value, toString p.amount.amount,
      toString (s.balance + LedgerPoster.movedUpTo journal.postings i p.accountId.value)⟩
  rows : ∃ rows, t'.postings = t.postings ++ rows ∧ rows.length = journal.postings.length ∧
    ∀ (i : Nat) (p : Posting) (u : Uuid) (s : BalanceRow), journal.postings[i]? = some p →
      Uuid.parse? p.accountId.value = some u → t.balances.get? u = some s →
      ∃ row, rows[i]? = some row ∧ row.accountId = u ∧ row.amount = p.amount.amount ∧
        row.balanceAfter = s.balance + LedgerPoster.movedUpTo journal.postings i p.accountId.value
  balance : ∀ p ∈ journal.postings, ∀ u, Uuid.parse? p.accountId.value = some u → ∃ s s' v, t.balances.get? u = some s ∧
    t'.balances.get? u = some s' ∧ (foldByAccount journal.postings).get? p.accountId.value = some v ∧
    s'.balance = s.balance + v
  others : ∀ u, (∀ p ∈ journal.postings, Uuid.parse? p.accountId.value ≠ some u) →
    t'.balances.get? u = t.balances.get? u
  total : ∀ currency, total t' currency = total t currency

variable {sha256 : String → String} {db t t' : Tables} {ws : List Write} {journal : JournalTransaction}
  {currency : Currency} {options : PostOptions} {b : Booking}

theorem Postable.readable (h : Postable t journal options) : ∀ p ∈ journal.postings, Readable t p.accountId.value := by
  intro p hp
  obtain ⟨u, row, s, ⟨hu, hrow⟩, hcode, -, hs⟩ := h.account p hp
  refine ⟨u, hu, fun row' hrow' => ?_⟩
  obtain rfl : row = row' := Option.some.inj (hrow.symm.trans hrow')
  exact ⟨hcode, s, hs⟩

/-- Only a floor can refuse such a journal. -/
theorem Postable.refuses_iff (h : Postable t journal options) {code : PostingError} :
    Refuses t journal.postings journal.currency options.requireOwner code ↔
      code = .insufficientFunds ∧ BelowFloor t journal.postings := by
  constructor
  · intro hrefuse
    cases hrefuse with
    | @unknownAccount p u hp hu hnone =>
      obtain ⟨u', row, _, ⟨hu', hrow⟩, -⟩ := h.account p hp
      obtain rfl : u' = u := Option.some.inj (hu'.symm.trans hu)
      cases hnone.symm.trans hrow
    | @accountCurrencyMismatch p u row hp hn hne =>
      obtain ⟨u', row', _, hn', -, hcode, -⟩ := h.account p hp
      obtain rfl : u' = u := Option.some.inj (hn'.1.symm.trans hn.1)
      obtain rfl : row' = row := Option.some.inj (hn'.2.symm.trans hn.2)
      exact absurd hcode.symm hne
    | @notAccountOwner p u row owner hreq hp hneg hn hu htype howner =>
      rcases h.owner owner hreq p hp (of_decide_eq_true hneg) u row hn with hsys | hown
      · exact absurd hsys htype
      · exact absurd hown howner
    | @insufficientFunds i p u row s floor hp hn hu hfloor hs hlt => exact ⟨rfl, i, p, u, row, s, floor, hp, hn, hfloor, hs, hlt⟩
  · rintro ⟨rfl, i, p, u, row, s, floor, hp, hn, hfloor, hs, hlt⟩
    have hspelled := Uuid.text_of_canonical (h.canonical p (List.mem_of_getElem? hp)) hn.1
    exact .insufficientFunds hp hn hspelled.symm hfloor hs hlt

theorem Booked.postedFold (hb : Booked t t' b) (hv : b.Valid sha256 t journal currency options)
    (hcur : journal.currency = currency) (hone : OneSpelling journal.postings) :
    PostedFold t t' journal b.event.payload := by
  have hsame : ∀ p ∈ journal.postings, p.amount.currency.code = currency.code := hcur ▸ journal.sameCurrency
  have hlen := LedgerPoster.postLegs_length hv.legs
  -- the line of a leg
  have hline : ∀ i p u s, journal.postings[i]? = some p → Uuid.parse? p.accountId.value = some u →
      t.balances.get? u = some s → ∃ line, b.legs.lines[i]? = some line ∧
        line.balanceAfter = s.balance + LedgerPoster.movedUpTo journal.postings i p.accountId.value := by
    intro i p u s hp hu hs
    obtain ⟨u', s', hu', hs', hlock⟩ := hv.lock p (List.mem_of_getElem? hp)
    obtain rfl : u' = u := Option.some.inj (hu'.symm.trans hu)
    obtain rfl : s' = s := Option.some.inj (hs'.symm.trans hs)
    exact (LedgerPoster.postLegs_upTo hsame hv.legs hp hlock).1
  exact {
    accounts := hb.accounts
    length := by
      rw [hv.event, LedgerPoster.receipt, List.length_zipWith, hlen, Nat.min_self]
    line := fun i p u s hp hu hs => by
      obtain ⟨line, hl, hbal⟩ := hline i p u s hp hu hs
      rw [hv.event, LedgerPoster.receipt, List.getElem?_zipWith, hp, hl, ← hbal]
    rows := by
      refine ⟨b.rows, hb.postings, ?_, fun i p u s hp hu hs => ?_⟩
      · rw [← hv.rows.length_eq, JournalTransactionsRepository.toPostingRows, List.length_zipWith, hlen, Nat.min_self]
      · obtain ⟨line, hl, hbal⟩ := hline i p u s hp hu hs
        obtain ⟨row, hrow, _, haid, hamount, hafter, -⟩ :=
          Forall₂.getElem?_right hv.rows (JournalTransactionsRepository.getElem?_toPostingRows hp hl)
        exact ⟨row, hrow, Option.some.inj (haid.symm.trans hu), hamount, hafter.trans hbal⟩
    balance := fun p hp u hu => by
      obtain ⟨s, s', hs, hlock, hrun, hs'⟩ := hb.touched hv hone hp hu
      exact ⟨s, s', _, hs, hs', foldByAccount_get? hp, LedgerPoster.postLegs_moved hv.legs hlock hrun⟩
    others := fun u hu => hb.untouched hv hu
    total := hb.total_eq hv hcur hone }

/-- **The posting loop is the plain fold.** `post` ends in `insufficient_funds` just if a leg
goes below a floor. Otherwise it leaves the sums of the fold, unless the database refuses more
legs than one `INSERT` can carry, or a number that does not fit its column. -/
theorem post_folds (h : Postable (postgres.view db ws) journal options) (n : Nat) :
    ((postgres.run db (LedgerPoster.post sha256 journal journal.currency options) ws n).1 =
        .error (.posting .insufficientFunds) ↔ BelowFloor (postgres.view db ws) journal.postings) ∧
      (¬ BelowFloor (postgres.view db ws) journal.postings → 6 * journal.postings.length ≤ 65535 →
        Fits (postgres.view db ws) journal.postings →
          ∃ r ws', (postgres.run db (LedgerPoster.post sha256 journal journal.currency options) ws n).1 = .ok (r, ws') ∧
            PostedFold (postgres.view db ws) (postgres.view db ws') journal r) ∧
      (¬ BelowFloor (postgres.view db ws) journal.postings → 6 * journal.postings.length ≤ 65535 →
        ¬ Fits (postgres.view db ws) journal.postings →
          (postgres.run db (LedgerPoster.post sha256 journal journal.currency options) ws n).1 = .error outOfRange) ∧
      (¬ BelowFloor (postgres.view db ws) journal.postings → ¬ 6 * journal.postings.length ≤ 65535 →
        (postgres.run db (LedgerPoster.post sha256 journal journal.currency options) ws n).1 = .error tooManyParameters) := by
  obtain ⟨id, hid, hfresh⟩ := h.fresh
  have hends := (LedgerPoster.post_ends sha256 h.readable rfl hid h.link).and_yields.run n
  have hrefuse : (∀ code, ¬ Refuses (postgres.view db ws) journal.postings journal.currency options.requireOwner code) ↔
      ¬ BelowFloor (postgres.view db ws) journal.postings := by
    constructor
    · intro hnone hbelow
      exact hnone _ (h.refuses_iff.2 ⟨rfl, hbelow⟩)
    · intro hnot code hcode
      exact hnot (h.refuses_iff.1 hcode).2
  rcases hends with ⟨r, ws', hrun, ⟨hnone, -, hfew, hfits⟩, hy⟩ | ⟨e, hrun, hwhy⟩
  · -- it returned
    have hnot := hrefuse.1 hnone
    rw [hrun]
    refine ⟨⟨fun h => ?_, fun h => absurd h hnot⟩, fun _ _ _ => ⟨r, ws', rfl, ?_⟩, fun _ _ hout => absurd hfits hout,
      fun _ hmany => absurd hfew hmany⟩
    · cases h
    · obtain ⟨b, hv, rfl, rfl⟩ := post_yields hy
      rw [view_append]
      exact (booked_writes _ b).postedFold hv rfl (oneSpelling_of_canonical h.canonical)
  · rw [hrun]
    rcases hwhy with ⟨code, rfl, hcode⟩ | ⟨hnone, ⟨-, htaken⟩ | ⟨-, ⟨rfl, hmany⟩ | ⟨rfl, hfew, hout⟩⟩⟩
    · -- a leg was refused
      obtain ⟨rfl, hbelow⟩ := h.refuses_iff.1 hcode
      exact ⟨⟨fun _ => hbelow, fun _ => rfl⟩, fun hnot => absurd hbelow hnot, fun hnot => absurd hbelow hnot,
        fun hnot => absurd hbelow hnot⟩
    · rw [hfresh] at htaken
      cases htaken
    · -- the legs were too many
      have hnot := hrefuse.1 hnone
      refine ⟨⟨fun h => ?_, fun h => absurd h hnot⟩, fun _ hfew => absurd hfew hmany, fun _ hfew => absurd hfew hmany,
        fun _ _ => rfl⟩
      cases h
    · -- a number did not fit
      have hnot := hrefuse.1 hnone
      refine ⟨⟨fun h => ?_, fun h => absurd h hnot⟩, fun _ _ hfits => absurd hfits hout, fun _ _ _ => rfl,
        fun _ hmany => absurd hfew hmany⟩
      cases h

/-! ## Runs on fixed inputs -/

namespace Sample

def dollars : Currency := ⟨some "USD", some 2⟩

/-- Dollars wired from the world to Alice. -/
def wire (amount : Int) (h : amount ≠ 0) : JournalTransaction where
  id := deposit.text
  currency := dollars
  postings := [⟨⟨usd.text⟩, ⟨-amount, dollars⟩⟩, ⟨⟨alice.text⟩, ⟨amount, dollars⟩⟩]
  nonempty := by simp
  sameCurrency := by simp
  nonzero := by simp [h]
  balanced := by simp

theorem opened_rows : openedWorld.db.accounts.get? usd = some (worldAccount "USD" 0) ∧
    openedWorld.db.accounts.get? alice = some ⟨.user, "USD", some 0, none, some "alice", 0⟩ ∧
    openedWorld.db.balances.get? usd = some ⟨0, none⟩ ∧ openedWorld.db.balances.get? alice = some ⟨0, none⟩ ∧
    openedWorld.db.journals.get? deposit = none := by decide +kernel

/-- A journal between the world and Alice. -/
theorem postable {journal : JournalTransaction} (hid : journal.id = deposit.text) (hcur : journal.currency = dollars)
    (hlegs : ∀ p ∈ journal.postings, p.accountId.value = usd.text ∨ p.accountId.value = alice.text) :
    Postable openedWorld.db journal (transferOptions "alice") := by
  obtain ⟨hworld, halice, hworld₀, halice₀, hfresh⟩ := opened_rows
  constructor
  · intro p hp
    rcases hlegs p hp with h | h
    · rw [h]; exact usd.canonical_text
    · rw [h]; exact alice.canonical_text
  · intro p hp
    rw [hcur]
    rcases hlegs p hp with h | h
    · rw [h]; exact ⟨usd, _, _, ⟨usd.parse?_text, hworld⟩, by decide, rfl, hworld₀⟩
    · rw [h]; exact ⟨alice, _, _, ⟨alice.parse?_text, halice⟩, by decide, rfl, halice₀⟩
  · rintro owner ⟨⟩ p hp - u row ⟨hu, hrow⟩
    rcases hlegs p hp with h | h
    · rw [h] at hu
      obtain rfl : usd = u := Option.some.inj (usd.parse?_text.symm.trans hu)
      obtain rfl : worldAccount "USD" 0 = row := Option.some.inj (hworld.symm.trans hrow)
      exact .inl rfl
    · rw [h] at hu
      obtain rfl : alice = u := Option.some.inj (alice.parse?_text.symm.trans hu)
      obtain rfl : _ = row := Option.some.inj (halice.symm.trans hrow)
      exact .inr rfl
  · exact ⟨deposit, hid ▸ deposit.parse?_text, hfresh⟩
  · exact ⟨none, trivial, by simp⟩

/-- It goes below no floor if it only pays Alice. -/
theorem above {postings : List Posting}
    (hlegs : ∀ p ∈ postings, p.accountId.value = usd.text ∨ (p.accountId.value = alice.text ∧ 0 ≤ p.amount.amount)) :
    ¬ BelowFloor openedWorld.db postings := by
  obtain ⟨hworld, halice, -, halice₀, -⟩ := opened_rows
  have hpaid : ∀ i, 0 ≤ LedgerPoster.movedUpTo postings i alice.text := by
    intro i
    refine List.sum_nonneg fun amount hamount => ?_
    obtain ⟨p, hp, rfl⟩ := List.mem_map.1 hamount
    obtain ⟨hp, hon⟩ := List.mem_filter.1 hp
    rcases hlegs p (List.mem_of_mem_take hp) with h | h
    · exact absurd (h.symm.trans (of_decide_eq_true hon)) (by decide)
    · exact h.2
  rintro ⟨i, p, u, row, s, floor, hp, ⟨hu, hrow⟩, hfloor, hs, hlt⟩
  rcases hlegs p (List.mem_of_getElem? hp) with h | ⟨h, -⟩
  · rw [h] at hu
    obtain rfl : usd = u := Option.some.inj (usd.parse?_text.symm.trans hu)
    obtain rfl : worldAccount "USD" 0 = row := Option.some.inj (hworld.symm.trans hrow)
    cases hfloor
  · rw [h] at hu hlt
    obtain rfl : alice = u := Option.some.inj (alice.parse?_text.symm.trans hu)
    obtain rfl := Option.some.inj (halice.symm.trans hrow)
    obtain rfl := Option.some.inj (halice₀.symm.trans hs)
    cases hfloor
    have hpaid := hpaid i
    have hlt : 0 + LedgerPoster.movedUpTo postings i alice.text < 0 := hlt
    omega

theorem wire_legs {amount : Int} (h : amount ≠ 0) (hpos : 0 < amount) : ∀ p ∈ (wire amount h).postings,
    p.accountId.value = usd.text ∨ (p.accountId.value = alice.text ∧ 0 ≤ p.amount.amount) := by
  intro p hp
  rcases List.mem_pair.1 hp with rfl | rfl
  · exact .inl rfl
  · exact .inr ⟨rfl, hpos.le⟩

theorem wire_postable {amount : Int} (h : amount ≠ 0) (hpos : 0 < amount) :
    Postable openedWorld.db (wire amount h) (transferOptions "alice") :=
  postable rfl rfl fun p hp => (wire_legs h hpos p hp).imp_right And.left

/-- The same paid to Alice in single cents. -/
def coins (n : Nat) (h : n ≠ 0) : JournalTransaction where
  id := deposit.text
  currency := dollars
  postings := ⟨⟨usd.text⟩, ⟨-n, dollars⟩⟩ :: List.replicate n ⟨⟨alice.text⟩, ⟨1, dollars⟩⟩
  nonempty := by simp
  sameCurrency := by simp [List.mem_replicate]
  nonzero := by simp [List.mem_replicate, h]
  balanced := by simp

theorem coins_legs {n : Nat} (h : n ≠ 0) : ∀ p ∈ (coins n h).postings,
    p.accountId.value = usd.text ∨ (p.accountId.value = alice.text ∧ 0 ≤ p.amount.amount) := by
  intro p hp
  rcases List.mem_cons.1 hp with rfl | hp
  · exact .inl rfl
  · rw [(List.mem_replicate.1 hp).2]
    exact .inr ⟨rfl, Int.one_nonneg⟩

theorem coins_postable {n : Nat} (h : n ≠ 0) : Postable openedWorld.db (coins n h) (transferOptions "alice") :=
  postable rfl rfl fun p hp => (coins_legs h p hp).imp_right And.left

/-- So many cents that one INSERT does not carry their legs. -/
theorem coins_refused {n : Nat} (h : n ≠ 0) (hmany : 65535 < 6 * (n + 1)) :
    Postable openedWorld.db (coins n h) (transferOptions "alice") ∧ ¬ BelowFloor openedWorld.db (coins n h).postings ∧
      ¬ ∃ r ws', (postgres.run openedWorld.db (LedgerPoster.post (digest fundingDigests) (coins n h) dollars
        (transferOptions "alice")) [] 1).1 = .ok (r, ws') := by
  have hpostable := coins_postable h
  refine ⟨hpostable, above (coins_legs h), ?_⟩
  rintro ⟨r, ws', hrun⟩
  obtain ⟨id, hid, -⟩ := hpostable.fresh
  have hends := (@LedgerPoster.post_ends openedWorld.db [] (digest fundingDigests) (coins n h) dollars
    (transferOptions "alice") id hpostable.readable rfl hid hpostable.link).run 1
  have hlength : (coins n h).postings.length = n + 1 := by simp [coins]
  rcases hends with ⟨_, _, -, -, -, hfew, -⟩ | ⟨e, herror, -⟩
  · rw [hlength] at hfew
    omega
  · cases hrun.symm.trans herror

/-- What a wire has moved at each of its legs. -/
theorem wire_moved (amount : Int) (h : amount ≠ 0) :
    LedgerPoster.movedUpTo (wire amount h).postings 0 usd.text = -amount ∧
      LedgerPoster.movedUpTo (wire amount h).postings 1 alice.text = amount := by
  have hne : usd.text ≠ alice.text := by decide
  constructor
  · exact LedgerPoster.movedUpTo_zero ⟨⟨usd.text⟩, ⟨-amount, dollars⟩⟩ _
  · simp [LedgerPoster.movedUpTo, LedgerPoster.moved, wire, hne]

theorem wire_fits {amount : Int} (h : amount ≠ 0) (hpos : 0 < amount) (hmax : amount < 2 ^ 63) :
    Fits openedWorld.db (wire amount h).postings := by
  obtain ⟨-, -, hworld₀, halice₀, -⟩ := opened_rows
  obtain ⟨hdebit, hcredit⟩ := wire_moved amount h
  intro i p u s hp hu hs
  match i with
  | 0 =>
    cases hp
    obtain rfl : usd = u := Option.some.inj (usd.parse?_text.symm.trans hu)
    obtain rfl := Option.some.inj (hworld₀.symm.trans hs)
    rw [hdebit]
    show (-2 ^ 63 ≤ -amount ∧ -amount < 2 ^ 63) ∧ -2 ^ 63 ≤ 0 + -amount ∧ 0 + -amount < 2 ^ 63
    omega
  | 1 =>
    cases hp
    obtain rfl : alice = u := Option.some.inj (alice.parse?_text.symm.trans hu)
    obtain rfl := Option.some.inj (halice₀.symm.trans hs)
    rw [hcredit]
    show (-2 ^ 63 ≤ amount ∧ amount < 2 ^ 63) ∧ -2 ^ 63 ≤ 0 + amount ∧ 0 + amount < 2 ^ 63
    omega
  | i + 2 => cases hp

end Sample

/-- The rule covers a wire of a hundred dollars. -/
theorem post_folds_wire : ∃ r ws',
    (postgres.run Sample.openedWorld.db (LedgerPoster.post (Sample.digest Sample.fundingDigests)
      (Sample.wire 100 (by decide)) Sample.dollars (transferOptions "alice")) [] 1).1 = .ok (r, ws') ∧
      PostedFold Sample.openedWorld.db (postgres.view Sample.openedWorld.db ws') (Sample.wire 100 (by decide)) r :=
  (@post_folds _ Sample.openedWorld.db [] _ _ (Sample.wire_postable (by decide) (by decide)) 1).2.1
    (Sample.above (Sample.wire_legs (by decide) (by decide))) (by decide)
    (Sample.wire_fits (by decide) (by decide) (by decide))

/-- A wire of 2 ^ 63 goes below no floor, and yet does not return; nor do 10922 cents paid in as
many legs. -/
theorem not_post_folds_wire :
    (Postable Sample.openedWorld.db (Sample.wire (2 ^ 63) (by decide)) (transferOptions "alice") ∧
      ¬ BelowFloor Sample.openedWorld.db (Sample.wire (2 ^ 63) (by decide)).postings ∧
      ¬ ∃ r ws', (postgres.run Sample.openedWorld.db (LedgerPoster.post (Sample.digest Sample.fundingDigests)
        (Sample.wire (2 ^ 63) (by decide)) Sample.dollars (transferOptions "alice")) [] 1).1 = .ok (r, ws')) ∧
    Postable Sample.openedWorld.db (Sample.coins 10922 (by decide)) (transferOptions "alice") ∧
      ¬ BelowFloor Sample.openedWorld.db (Sample.coins 10922 (by decide)).postings ∧
      ¬ ∃ r ws', (postgres.run Sample.openedWorld.db (LedgerPoster.post (Sample.digest Sample.fundingDigests)
        (Sample.coins 10922 (by decide)) Sample.dollars (transferOptions "alice")) [] 1).1 = .ok (r, ws') := by
  refine ⟨⟨Sample.wire_postable _ (by decide), Sample.above (Sample.wire_legs _ (by decide)), ?_⟩, ?_⟩
  · have h : (postgres.run Sample.openedWorld.db (LedgerPoster.post (Sample.digest Sample.fundingDigests)
        (Sample.wire (2 ^ 63) (by decide)) Sample.dollars (transferOptions "alice")) [] 1).1.toOption.isSome = false := by
      decide +kernel
    rintro ⟨r, ws', hrun⟩
    rw [hrun] at h
    cases h
  · exact Sample.coins_refused (by decide) (by decide)

end MiniLedger
