import MiniLedger.Ledger.Audit
import MiniLedger.Ledger.Office

/-!
# `post` judges like the book

Stored balances, the two maps of `collect`, the running map of `postLegs` and the constraints
of the schema together come to `Book.verdict`: on the tables of a run, and for ids sent as
the database prints them, `post` throws what the book holds against the entry first, and
where there is nothing it enters it.
-/

namespace MiniLedger

open Bookkeeping Collections Sessions

/-- Tables of a run whose requests sent ids as the database prints them. -/
structure Filed (sha256 : String → String) (t : Tables) : Prop where
  recorded : Recorded t
  audited : Audited sha256 t
  ordered : Ordered t.postings
  charted : ∀ u s, t.balances.get? u = some s → (t.accounts.get? u).isSome

variable {sha256 : String → String} {db t t' : Tables} {ws : List Write}

/-! ## The book of the tables -/

theorem Tables.book_chart (t : Tables) (u : Uuid) : t.book.chart u = (t.accounts.get? u).map AccountRow.terms := rfl

theorem Tables.book_find (t : Tables) (id : Uuid) :
    t.book.find id = (t.journals.get? id).map fun row => t.entry (id, row) := by
  have hfind : t.book.find id = (t.journals.entries.find? fun e => e.1 = id).map t.entry := List.find?_map
  rw [hfind]
  cases hg : t.journals.get? id with
  | none =>
    rw [List.find?_eq_none.2]
    · rfl
    · intro e he heq
      obtain rfl := of_decide_eq_true heq
      exact Keyed.get?_eq_none_iff.1 hg (List.mem_map_of_mem he)
  | some row =>
    cases hf : t.journals.entries.find? fun e => e.1 = id with
    | none => exact absurd (decide_eq_true rfl) (List.find?_eq_none.1 hf (id, row) (Keyed.get?_eq_some_iff.1 hg))
    | some e =>
      have hid := List.find?_some hf
      obtain rfl : e.1 = id := by simpa using hid
      have hrow : t.journals.get? e.1 = some e.2 := Keyed.get?_eq_some_iff.2 (List.mem_of_find?_eq_some hf)
      rw [Option.some.inj (hg.symm.trans hrow)]
      rfl

theorem Tables.book_reversed (t : Tables) (id : Uuid) : t.book.reversed id = (t.reversalOf id).isSome := by
  refine Bool.eq_iff_iff.2 ?_
  rw [Tables.reversalOf, Option.isSome_map, List.find?_isSome]
  show ((t.journals.entries.map t.entry).any fun e => e.reverses = some id) = true ↔ _
  rw [List.any_map, List.any_eq_true]
  exact Iff.rfl

/-- The legs of the book are the stored postings, journal by journal. -/
theorem Recorded.book_legs (h : Recorded t) :
    (t.book.entries.flatMap Entry.legs).Perm (t.postings.map PostingRow.leg) := by
  have hlegs : t.book.entries.flatMap Entry.legs =
      (t.journals.keys.flatMap fun id => t.postings.filter fun p => p.transactionId = id).map PostingRow.leg := by
    rw [Keyed.keys, List.flatMap_map, List.map_flatMap]
    exact List.flatMap_map ..
  have hperm : (t.journals.keys.flatMap fun id => t.postings.filter fun p => p.transactionId = id).Perm t.postings := by
    refine perm_flatMap_filter t.journals.nodup fun p hp => ?_
    obtain ⟨-, _, j, -, hj, -⟩ := h.posting p hp
    exact Keyed.mem_keys_iff.2 ⟨j, hj⟩
  rw [hlegs]
  exact hperm.map PostingRow.leg

/-- The balance of the book is the sum of the stored postings. -/
theorem Recorded.book_balance (h : Recorded t) (u : Uuid) :
    t.book.balance u = ((t.postingsFor u).map PostingRow.amount).sum := by
  rw [Book.balance, moved, ((h.book_legs.filter _).map _).sum_eq, List.filter_map, List.map_map]
  rfl

/-- The stored balance is that of the book. -/
theorem Filed.balance (h : Filed sha256 t) {u : Uuid} {row : AccountRow} {s : BalanceRow}
    (hrow : t.accounts.get? u = some row) (hs : t.balances.get? u = some s) : t.book.balance u = s.balance := by
  obtain ⟨s', hs', trail⟩ := h.audited.trail u row hrow
  obtain rfl : s' = s := Option.some.inj (hs'.symm.trans hs)
  rw [h.recorded.book_balance, trail.sum]

/-! ## Postings and legs -/

/-- The leg a posting stands for, its id sent as the database prints it. -/
def Spells (p : Posting) (l : Leg Uuid) : Prop := p.accountId.value = l.account.text ∧ p.amount.amount = l.amount

theorem Spells.parse {p : Posting} {l : Leg Uuid} (h : Spells p l) : Uuid.parse? p.accountId.value = some l.account :=
  h.1 ▸ l.account.parse?_text

theorem moved_spells {ps : List Posting} {legs : List (Leg Uuid)} (h : List.Forall₂ Spells ps legs) (u : Uuid) :
    LedgerPoster.moved ps u.text = moved legs u := by
  induction h with
  | nil => rfl
  | @cons p l ps legs hs _ ih =>
    rw [LedgerPoster.moved_cons, moved_cons, ih, hs.2]
    by_cases hu : l.account = u
    · rw [if_pos hu, if_pos (by rw [hs.1, hu])]
    · have htext : l.account.text ≠ u.text := fun heq => hu (Uuid.ext heq)
      rw [if_neg hu, if_neg (by rw [hs.1]; exact htext)]

/-- The balance `postLegs` computes after a leg is that of the book. -/
theorem Filed.after (h : Filed sha256 t) {ps : List Posting} {legs : List (Leg Uuid)} (hs : List.Forall₂ Spells ps legs)
    {l : Leg Uuid} {row : AccountRow} {s : BalanceRow} (hrow : t.accounts.get? l.account = some row)
    (hbal : t.balances.get? l.account = some s) (i : Nat) :
    t.book.after legs i l = s.balance + LedgerPoster.movedUpTo ps i l.account.text := by
  rw [Book.after, h.balance hrow hbal, LedgerPoster.movedUpTo, moved_spells (List.forall₂_take _ hs)]

/-! ## The verdict -/

namespace LedgerPoster

variable {journal : JournalTransaction} {currency : Currency} {options : PostOptions}

variable (currency) in
/-- The loop over the accounts screens the legs. -/
theorem collect_screen (hf : Filed sha256 t) {ps : List Posting} {legs : List (Leg Uuid)}
    (hs : List.Forall₂ Spells ps legs) {accounts : List (Option Account)}
    (hread : List.Forall₂ (fun id o => postgres.read t (AccountsRepository.findById id) = .ok o)
      (ps.map Posting.accountId) accounts) (start : Involved) :
    (∃ fault, t.book.screen currency.code legs = some fault ∧ collect currency accounts start = .error (failure fault)) ∨
      (t.book.screen currency.code legs = none ∧ ∃ involved, collect currency accounts start = .ok involved) := by
  induction hs generalizing accounts start with
  | nil =>
    cases hread
    exact .inr ⟨rfl, start, rfl⟩
  | @cons p l ps legs hp _ ih =>
    rw [List.map_cons, List.forall₂_cons_left_iff] at hread
    obtain ⟨o, os, hfind, hread, rfl⟩ := hread
    obtain ⟨u, hu, hfound⟩ := AccountsRepository.findById_read hfind
    obtain rfl : u = l.account := Option.some.inj (hu.symm.trans hp.parse)
    rw [Book.screen, t.book_chart]
    obtain ⟨hnone, rfl⟩ | ⟨row, a, hrow, hd, rfl⟩ := hfound
    · rw [hnone]
      exact .inl ⟨.unknown, rfl, rfl⟩
    · have hcode := AccountsRepository.toDomain_supported (hf.recorded.account _ row hrow).1 hd
      rw [hrow, collect]
      simp only [Option.map_some, AccountRow.terms, Currency.equals, hcode]
      by_cases hsame : some row.currency = currency.code
      · simp only [hsame, ne_eq, not_true_eq_false, if_false, beq_self_eq_true]
        exact ih hread _
      · simp only [hsame, ne_eq, not_false_eq_true, if_true, beq_iff_eq]
        exact .inl ⟨.mismatch, rfl, rfl⟩

variable {ps : List Posting} {legs : List (Leg Uuid)} {as : List Account}

/-- The account of a leg, as `post` found it. -/
theorem found_leg (hs : List.Forall₂ Spells ps legs) (found : List.Forall₂ (Found t) ps as) {l : Leg Uuid} (hl : l ∈ legs) :
    ∃ row a, t.accounts.get? l.account = some row ∧ AccountsRepository.toDomain l.account row = .ok a ∧
      ∀ {α : Type} (f : Account → α),
        (Keyed.empty.setAll (as.map fun a => (a.id.value, f a))).get? l.account.text = some (f a) := by
  obtain ⟨p, hp, hspell⟩ := Forall₂.exists_left hs hl
  obtain ⟨_, -, u, row, hn, -⟩ := Forall₂.exists_right found hp
  obtain rfl : u = l.account := Option.some.inj (hn.1.symm.trans hspell.parse)
  obtain ⟨a, hd, hmap⟩ := Found.mapped found hp hn
  exact ⟨row, a, hn.2, hd, hmap⟩

variable (options) in
/-- The loop over the owners bars the party. -/
theorem requireOwner_barred (hs : List.Forall₂ Spells ps legs) (found : List.Forall₂ (Found t) ps as) :
    (t.book.barred options.requireOwner legs = true ∧
        requireOwner options (Keyed.empty.setAll (as.map fun a => (a.id.value, a))) ps = .error (failure .forbidden)) ∨
      (t.book.barred options.requireOwner legs = false ∧
        requireOwner options (Keyed.empty.setAll (as.map fun a => (a.id.value, a))) ps = .ok ()) := by
  have draws : ∀ {u : Uuid} {row : AccountRow} {a : Account} (subject : String),
      AccountsRepository.toDomain u row = .ok a →
      ((¬ a.isSystem ∧ ¬ a.isOwnedBy subject) ↔ row.terms.draws subject = false) := by
    intro u row a subject hd
    obtain ⟨-, htype, -, howner, -⟩ := AccountsRepository.toDomain_ok hd
    simp [Account.isSystem, Account.isOwnedBy, htype, howner, AccountRow.terms]
  cases hx : requireOwner options (Keyed.empty.setAll (as.map fun a => (a.id.value, a))) ps with
  | error e =>
    rw [requireOwner] at hx
    split at hx
    · rename_i owner hreq
      obtain ⟨rfl, p, hp, hneg, a, ha, hown⟩ := checkOwner_error hx
      obtain ⟨l, hl, hspell⟩ := Forall₂.exists_right hs hp
      obtain ⟨row, a', hrow, hd, hmap⟩ := found_leg hs found hl
      obtain rfl : a' = a := Option.some.inj ((hmap fun a => a).symm.trans (hspell.1 ▸ ha))
      refine .inl ⟨Book.barred_iff.2 ⟨owner, hreq, l, hl, ?_, fun terms hterms => ?_⟩, rfl⟩
      · rw [← hspell.2]
        exact of_decide_eq_true hneg
      · rw [t.book_chart, hrow] at hterms
        cases hterms
        exact (draws owner hd).1 hown
    · cases hx
  | ok _ =>
    refine .inr ⟨Bool.eq_false_iff.2 fun hbarred => ?_, rfl⟩
    obtain ⟨owner, hreq, l, hl, hneg, hterms⟩ := Book.barred_iff.1 hbarred
    rw [requireOwner, hreq] at hx
    obtain ⟨p, hp, hspell⟩ := Forall₂.exists_left hs hl
    obtain ⟨row, a, hrow, hd, hmap⟩ := found_leg hs found hl
    have hpneg : p.amount.isNegative = true := decide_eq_true (by rw [hspell.2]; exact hneg)
    have hok := checkOwner_ok hx p hp hpneg a (by rw [hspell.1]; exact hmap fun a => a)
    obtain ⟨hsystem, howner⟩ := (draws owner hd).2 (hterms _ (by rw [t.book_chart, hrow]; rfl))
    exact hok.elim hsystem howner

/-- The loop over the legs finds one short. -/
theorem postLegs_short (hf : Filed sha256 t) (hs : List.Forall₂ Spells ps legs) (found : List.Forall₂ (Found t) ps as)
    (hsame : ∀ p ∈ ps, p.amount.currency.code = currency.code) {locked : Keyed String BalanceRow}
    (hlock : ∀ p ∈ ps, ∃ u row, Uuid.parse? p.accountId.value = some u ∧ t.balances.get? u = some row ∧
      locked.get? p.accountId.value = some row) (transactionId : String) :
    (t.book.short legs = true ∧ postLegs sha256 currency (Keyed.empty.setAll (as.map fun a => (a.id.value, a.overdraftFloor)))
        transactionId ps locked = .error (failure .short)) ∨
      (t.book.short legs = false ∧ ∃ lines, postLegs sha256 currency
        (Keyed.empty.setAll (as.map fun a => (a.id.value, a.overdraftFloor))) transactionId ps locked = .ok lines) := by
  -- what was locked for a leg
  have locked_leg : ∀ {p : Posting} {l : Leg Uuid}, p ∈ ps → Spells p l → ∃ s, t.balances.get? l.account = some s ∧
      locked.get? p.accountId.value = some s := by
    intro p l hp hspell
    obtain ⟨u, s, hu, hs, hlocked⟩ := hlock p hp
    obtain rfl : u = l.account := Option.some.inj (hu.symm.trans hspell.parse)
    exact ⟨s, hs, hlocked⟩
  cases hx : postLegs sha256 currency (Keyed.empty.setAll (as.map fun a => (a.id.value, a.overdraftFloor)))
      transactionId ps locked with
  | error e =>
    have hrun : ∀ p ∈ ps, ∃ s, locked.get? p.accountId.value = some s := by
      intro p hp
      obtain ⟨_, s, -, -, hlocked⟩ := hlock p hp
      exact ⟨s, hlocked⟩
    obtain ⟨rfl, i, p, s, floor, hp, hlocked, hfloor, hlt⟩ := postLegs_error hsame hrun hx
    obtain ⟨l, hl, hspell⟩ := Forall₂.getElem?_right hs hp
    obtain ⟨row, a, hrow, hd, hmap⟩ := found_leg hs found (List.mem_of_getElem? hl)
    obtain ⟨s', hbal, hlocked'⟩ := locked_leg (List.mem_of_getElem? hp) hspell
    obtain rfl : s' = s := Option.some.inj (hlocked'.symm.trans hlocked)
    rw [hspell.1, hmap Account.overdraftFloor, Option.some.injEq, (AccountsRepository.toDomain_ok hd).2.2.1] at hfloor
    refine .inl ⟨Book.short_iff.2 ⟨i, l, row.terms, floor, hl, by rw [t.book_chart, hrow]; rfl, hfloor, ?_⟩, rfl⟩
    rw [hf.after hs hrow hbal, ← hspell.1]
    exact hlt
  | ok lines =>
    refine .inr ⟨Bool.eq_false_iff.2 fun hshort => ?_, lines, rfl⟩
    obtain ⟨i, l, terms, floor, hl, hterms, hfloor, hlt⟩ := Book.short_iff.1 hshort
    obtain ⟨p, hp, hspell⟩ := Forall₂.getElem?_left hs hl
    obtain ⟨row, a, hrow, hd, hmap⟩ := found_leg hs found (List.mem_of_getElem? hl)
    obtain ⟨s, hbal, hlocked⟩ := locked_leg (List.mem_of_getElem? hp) hspell
    rw [t.book_chart, hrow] at hterms
    cases hterms
    have hfloor : row.overdraftFloor = some floor := hfloor
    have hmapped := hmap Account.overdraftFloor
    rw [(AccountsRepository.toDomain_ok hd).2.2.1, hfloor, ← hspell.1] at hmapped
    have hkept := (postLegs_upTo hsame hx hp hlocked).2 floor hmapped
    rw [hf.after hs hrow hbal, ← hspell.1] at hlt
    omega

/-- The rows fit their columns just if the book can write them down. -/
theorem fits_unfit (hf : Filed sha256 t) (hs : List.Forall₂ Spells ps legs) (found : List.Forall₂ (Found t) ps as) :
    Fits t ps ↔ t.book.unfit Int8 legs = false := by
  rw [Bool.eq_false_iff]
  constructor
  · intro hfits hunfit
    obtain ⟨i, l, hl, hnot⟩ := Book.unfit_iff.1 hunfit
    obtain ⟨p, hp, hspell⟩ := Forall₂.getElem?_left hs hl
    obtain ⟨row, _, hrow, -⟩ := found_leg hs found (List.mem_of_getElem? hl)
    obtain ⟨-, s, hbal⟩ := hf.recorded.account _ row hrow
    have hfit := hfits i p l.account s hp hspell.parse hbal
    rw [hspell.2, hspell.1, ← hf.after hs hrow hbal] at hfit
    exact hnot hfit
  · intro hfit i p u s hp hu hbal
    obtain ⟨l, hl, hspell⟩ := Forall₂.getElem?_right hs hp
    obtain rfl : u = l.account := Option.some.inj (hu.symm.trans hspell.parse)
    obtain ⟨row, _, hrow, -⟩ := found_leg hs found (List.mem_of_getElem? hl)
    by_contra hnot
    refine hfit (Book.unfit_iff.2 ⟨i, l, hl, ?_⟩)
    rw [hf.after hs hrow hbal, ← hspell.1, ← hspell.2]
    exact hnot

variable (sha256) (options) in
/-- **`post` judges like the book.** It throws what the book holds against the entry first,
and returns where that is nothing. -/
theorem post_judged {e : LedgerEntry} (ht : postgres.view db ws = t) (hf : Filed sha256 t)
    (hs : List.Forall₂ Spells journal.postings e.legs) (hid : journal.id = e.id.text) (hcur : journal.currency = currency)
    (hcode : currency.code = e.currency) (hlink : Linkable t options.reversesTransactionId)
    (hfew : 6 * journal.postings.length ≤ 65535) :
    postgres.Ends db (fun _ _ => t.book.verdict Int8 options.requireOwner e = none)
      (fun x => ∃ fault, t.book.verdict Int8 options.requireOwner e = some fault ∧ x = failure fault)
      (post sha256 journal currency options) ws := by
  subst ht
  have hsame : ∀ p ∈ journal.postings, p.amount.currency.code = currency.code := hcur ▸ journal.sameCurrency
  have hr : ∀ p ∈ journal.postings, Readable (postgres.view db ws) p.accountId.value := by
    intro p hp
    obtain ⟨l, -, hspell⟩ := Forall₂.exists_right hs hp
    exact hf.recorded.readable hspell.parse
  have hparse : Uuid.parse? journal.id = some e.id := hid ▸ e.id.parse?_text
  rw [Book.verdict, ← hcode]
  simp only [post, Prog.monad_bind, Prog.monad_pure]
  -- the accounts
  have hfind : postgres.Ends db (fun _ _ => True) (fun _ => False)
      (findAccounts (journal.postings.map Posting.accountId)) ws := findAccounts_ends (by
    intro i hi
    obtain ⟨p, hp, rfl⟩ := List.mem_map.1 hi
    exact hr p hp)
  refine Engine.ends_bind (hfind.and_yields.mono (fun accounts mid h => ?_) fun _ h => h.elim)
  obtain ⟨-, hy⟩ := h
  obtain ⟨rfl, hread⟩ := findAccounts_yields hy
  have hscreen := collect_screen currency hf hs hread ⟨Keyed.empty, Keyed.empty⟩
  refine Engine.ends_bind (Engine.ends_ofExcept (fun involved hcollect => ?_) fun x hx => ?_)
  swap
  · obtain ⟨fault, hfault, hx'⟩ | ⟨-, involved, hok⟩ := hscreen
    · cases hx'.symm.trans hx
      exact ⟨fault, by rw [hfault], rfl⟩
    · cases hok.symm.trans hx
  obtain ⟨fault, -, hx⟩ | ⟨hscreen, -⟩ := hscreen
  · cases hx.symm.trans hcollect
  rw [hscreen]
  obtain ⟨as, rfl, has, hfloors, hbyId⟩ := collect_ok hcollect
  have found := found_of_read hread
  -- the owners
  have howner := requireOwner_barred options hs found
  refine Engine.ends_bind (Engine.ends_ofExcept (fun _ hok => ?_) fun x hx => ?_)
  swap
  · rw [hbyId] at hx
    obtain ⟨hbarred, hx'⟩ | ⟨-, hok⟩ := howner
    · cases hx'.symm.trans hx
      exact ⟨.forbidden, by simp [hbarred], rfl⟩
    · cases hok.symm.trans hx
  rw [hbyId] at hok
  obtain ⟨-, hx⟩ | ⟨hbarred, -⟩ := howner
  · cases hx.symm.trans hok
  -- the locks
  have hlock : postgres.Ends db (fun _ _ => True) (fun _ => False)
      (AccountBalancesRepository.lockForUpdate (journal.postings.map Posting.accountId)) mid :=
    AccountBalancesRepository.lockForUpdate_ends (lockable_of_found hr found)
  refine Engine.ends_bind (hlock.and_yields.mono (fun locked mid' h => ?_) fun _ h => h.elim)
  obtain ⟨-, hy⟩ := h
  obtain ⟨rfl, hlocked, hkeys⟩ := AccountBalancesRepository.lockForUpdate_yields hy
  have hlegsLocked := fun p hp => hlocked _ (@List.mem_map_of_mem _ _ _ p Posting.accountId hp)
  -- the legs
  have hshort := postLegs_short hf hs found hsame hlegsLocked journal.id
  refine Engine.ends_bind (Engine.ends_ofExcept (fun lines hlines => ?_) fun x hx => ?_)
  swap
  · rw [hfloors] at hx
    obtain ⟨hshort, hx'⟩ | ⟨-, _, hok⟩ := hshort
    · cases hx'.symm.trans hx
      exact ⟨.short, by simp [hbarred, hshort], rfl⟩
    · cases hok.symm.trans hx
  have passed : Passed sha256 (postgres.view db mid') journal currency options as involved locked lines :=
    ⟨found, has, hfloors, hbyId, by rw [hbyId]; exact hok, hlegsLocked, hlines⟩
  rw [hfloors] at hlines
  obtain ⟨-, hx⟩ | ⟨hshort, -⟩ := hshort
  · cases hx.symm.trans hlines
  -- the rows
  obtain ⟨code, hcode'⟩ := passed.code hr hcur
  have hfits := (passed.fits_iff hcur).trans (fits_unfit hf hs found)
  refine Engine.ends_bind ((JournalTransactionsRepository.append_ends (postLegs_length hlines) hparse hcode' hlink
    fun p hp => passed.account hp).mono (fun _ mid h => ?_) fun x hx => ?_)
  swap
  · obtain ⟨rfl, htaken⟩ | ⟨hfresh, ⟨rfl, hmany⟩ | ⟨rfl, -, v, hv, hout⟩⟩ := hx
    · refine ⟨.duplicate, ?_, rfl⟩
      simp [hbarred, hshort, Tables.book_find, htaken]
    · exact absurd hfew hmany
    · refine ⟨.unfit, ?_, rfl⟩
      have hunfit : (postgres.view db mid').book.unfit Int8 e.legs = true := by
        by_contra hfit
        exact hout (hfits.2 (Bool.eq_false_iff.2 hfit) v hv)
      simp [hbarred, hshort, Tables.book_find, hfresh, hunfit]
  obtain ⟨hfresh, -, hall⟩ := h
  have hunfit := hfits.1 hall
  -- the balances
  refine Engine.ends_bind ((updateBalances_ends (passed.entries hkeys hall)).mono (fun _ mid' _ => ?_) fun _ h => h.elim)
  -- the event
  refine Engine.ends_bind fun n => ⟨fun _ _ _ => ?_, fun x hx => ?_⟩
  · show _ = none
    simp [hbarred, hshort, Tables.book_find, hfresh, hunfit]
  · cases hx

end LedgerPoster

end MiniLedger
