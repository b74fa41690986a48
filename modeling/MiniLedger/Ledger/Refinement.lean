import MiniLedger.Ledger.Judged
import MiniLedger.Ledger.TransferEnds

/-!
# A request does what the book says

Served alone, each of the three requests answers as the office read off the tables answers,
and leaves tables the office it leaves is read off. The balance rows, the locks, the chain
of hashes and the claimed keys are its way of doing that and nothing else.
-/

namespace MiniLedger

open Bookkeeping Collections Sessions

variable {sha256 : String → String} {t t' : Tables} {w : postgres.World}

/-! ## A booking in the book -/

section

variable {journal : JournalTransaction} {currency : Currency} {options : PostOptions} {b : Booking} {e : LedgerEntry}

theorem rows_legs {ps : List Posting} {legs : List (Leg Uuid)} {lines : List PostingLine} {rows : List PostingRow}
    {id : String} (hs : List.Forall₂ Spells ps legs) (hlen : lines.length = ps.length)
    (hrows : List.Forall₂ Stored (ps.zipWith (JournalTransactionsRepository.toPostingRow id) lines) rows) :
    rows.map PostingRow.leg = legs := by
  induction hs generalizing lines rows with
  | nil =>
    cases hrows
    rfl
  | @cons p l ps legs hp _ ih =>
    cases lines with
    | nil => cases hlen
    | cons line lines =>
      rw [List.zipWith_cons_cons, List.forall₂_cons_left_iff] at hrows
      obtain ⟨row, rows, ⟨-, hacc, hamount, -⟩, hrows, rfl⟩ := hrows
      obtain ⟨account, amount⟩ := l
      obtain rfl : row.accountId = account := Option.some.inj (hacc.symm.trans hp.parse)
      have hleg : row.leg = ⟨row.accountId, amount⟩ := congrArg (Leg.mk row.accountId) (hamount.trans hp.2)
      rw [List.map_cons, ih (Nat.succ.inj hlen) hrows, hleg]

/-- The entry a booking makes. -/
theorem Booking.Valid.entry (hv : b.Valid sha256 t journal currency options) (hcur : journal.currency = currency)
    (hs : List.Forall₂ Spells journal.postings e.legs) (hid : journal.id = e.id.text) (hcode : currency.code = e.currency)
    (hcast : Cast options.reversesTransactionId e.reverses) :
    e = ⟨b.id, some b.currency, b.rows.map PostingRow.leg, b.reverses⟩ := by
  obtain ⟨id, code, legs, reverses⟩ := e
  obtain rfl : b.id = id := Option.some.inj (hv.id.symm.trans (hid ▸ id.parse?_text))
  obtain rfl : some b.currency = code := (hcur ▸ hv.code).symm.trans hcode
  have hlegs : b.rows.map PostingRow.leg = legs := rows_legs hs (LedgerPoster.postLegs_length hv.legs) hv.rows
  have hreverses : b.reverses = reverses := by
    have htarget := mapM_castUuid_ok.2 hv.target
    rw [mapM_castUuid_ok.2 hcast] at htarget
    exact (Except.ok.inj htarget).symm
  rw [hlegs, hreverses]

/-- A booking enters one entry. -/
theorem Booked.book (h : Recorded t) (hv : b.Valid sha256 t journal currency options) (hb : Booked t t' b) :
    t'.book = t.book.enter ⟨b.id, some b.currency, b.rows.map PostingRow.leg, b.reverses⟩ := by
  have hold : ∀ e ∈ t.journals.entries, t'.entry e = t.entry e := by
    intro e he
    have hne : e.1 ≠ b.id := by
      intro heq
      exact Keyed.get?_eq_none_iff.1 hv.fresh (heq ▸ List.mem_map_of_mem he)
    rw [Tables.entry, Tables.entry, hb.postingsOf hv, if_neg hne, List.append_nil]
  have hnew : t'.entry (b.id, ⟨b.currency, b.reverses⟩) =
      ⟨b.id, some b.currency, b.rows.map PostingRow.leg, b.reverses⟩ := by
    rw [Tables.entry, hb.postingsOf hv, if_pos rfl, h.postingsOf_fresh hv.fresh, List.nil_append]
  refine Book.ext ?_ ?_
  · show (fun u => (t'.accounts.get? u).map AccountRow.terms) = _
    rw [hb.accounts]
    rfl
  · show t'.journals.entries.map t'.entry = t.journals.entries.map t.entry ++ [_]
    rw [hb.journals, Keyed.entries_set_of_none hv.fresh, List.map_append, List.map_congr_left hold, List.map_singleton, hnew]

/-- The receipt of a booking is that of the entry. -/
theorem Booking.Valid.receipt (hf : Filed sha256 t) (hv : b.Valid sha256 t journal currency options)
    (hcur : journal.currency = currency) (hs : List.Forall₂ Spells journal.postings e.legs)
    (hid : journal.id = e.id.text) (hcode : currency.code = e.currency) :
    b.event = ⟨options.eventType, receiptOf t.book e⟩ := by
  have hsame : ∀ p ∈ journal.postings, p.amount.currency.code = currency.code := hcur ▸ journal.sameCurrency
  have hpostings : journal.postings.zipWith
      (fun posting line => (⟨posting.accountId.value, toString posting.amount.amount, toString line.balanceAfter⟩ : PostingReceipt))
      b.legs.lines =
      e.legs.zipWith (fun l after => ⟨l.account.text, toString l.amount, toString after⟩) (t.book.trail e.legs) := by
    refine List.ext_getElem? fun i => ?_
    rw [List.getElem?_zipWith, List.getElem?_zipWith]
    cases hp : journal.postings[i]? with
    | none =>
      have hl : e.legs[i]? = none := by
        rw [List.getElem?_eq_none_iff] at hp ⊢
        rwa [← hs.length_eq]
      rw [hl]
    | some p =>
      obtain ⟨l, hl, hspell⟩ := Forall₂.getElem?_right hs hp
      obtain ⟨u, s, hu, hbal, hlock⟩ := hv.lock p (List.mem_of_getElem? hp)
      obtain rfl : u = l.account := Option.some.inj (hu.symm.trans hspell.parse)
      obtain ⟨u', row, -, hn, -⟩ := hv.account p (List.mem_of_getElem? hp)
      obtain rfl : u' = l.account := Option.some.inj (hn.1.symm.trans hspell.parse)
      obtain ⟨⟨line, hline, hafter⟩, -⟩ := LedgerPoster.postLegs_upTo hsame hv.legs hp hlock
      rw [hspell.1, ← hf.after hs hn.2 hbal] at hafter
      rw [hl, hline, Book.getElem?_trail _ hl]
      simp only [hspell.1, hspell.2, hafter]
  rw [hv.event, LedgerPoster.receipt, hpostings, hid, hcode]
  rfl

end

/-! ## Serving through the office -/

/-- The program does what leads the office to `out`. -/
def Leads (t : Tables) (recover : Failure → Except Failure Reply) (out : Except Failure Reply × Office)
    (body : InTx Reply) : Prop :=
  postgres.Ends t (fun r ws => out = (.ok r, (postgres.view t ws).office) ∧ Recorded (postgres.view t ws))
    (fun e => out = (recover e, t.office)) body []

theorem Leads.serve {request : Request} {body : InTx Reply} {recover : Failure → Except Failure Reply}
    {out : Except Failure Reply × Office} (h : Leads w.db recover out body)
    (hread : postgres.read w.db (request.call sha256) = .ok (.transaction body recover)) :
    (serve sha256 request w).1 = out.1 ∧ (serve sha256 request w).2.db.office = out.2 := by
  obtain ⟨r, ws, ⟨rfl, -⟩, hres, hdb⟩ | ⟨e, rfl, hres, hdb⟩ := Engine.Ends.serve hread h fun _ ws hpost => hpost.2.settle ws
  · exact ⟨hres, congrArg Tables.office hdb⟩
  · exact ⟨hres, congrArg Tables.office hdb⟩

/-! ## Opening an account -/

theorem Tables.office_opened (t : Tables) (id : Uuid) (code ownerId : String) (now : Nat) :
    (postgres.view t (AccountsService.writes id code ownerId now)).office =
      { t.office with book := t.book.open_ id (AccountRow.terms ⟨.user, code, some 0, none, some ownerId, now⟩) } := by
  refine Office.ext (Book.ext (funext fun u => ?_) rfl) rfl rfl (view_entrySize ..)
  show ((t.accounts.set id _).get? u).map AccountRow.terms = Function.update t.book.chart id _ u
  rw [Keyed.get?_set]
  by_cases hu : u = id
  · rw [if_pos hu, hu, Function.update_self]
    rfl
  · rw [if_neg hu, Function.update_of_ne hu]
    rfl

theorem Office.checkAccount_ok {o : Office} {code : Option String} {ownerId c : String} {id : Uuid} :
    o.checkAccount code ownerId id = .ok c ↔
      Storable ownerId ∧ code = some c ∧ o.book.chart id = none ∧ Indexed o.entrySize ownerId := by
  simp only [Office.checkAccount, except_bind_ok, bindText_ok, notNull_ok, require_ok, indexText_ok, except_pure_ok,
    exists_const, Option.mem_some_iff, forall_eq', Option.isNone_iff_eq_none]
  constructor
  · rintro ⟨hstore, _, hcode, hnew, hindex, rfl⟩
    exact ⟨hstore, hcode, hnew, hindex⟩
  · rintro ⟨hstore, hcode, hnew, hindex⟩
    exact ⟨hstore, c, hcode, hnew, hindex, rfl⟩

/-- The row of a new account goes in unless the office holds something against the account. -/
theorem insertAccount_checked {account : Account} {id : Uuid} {ownerId : String} (n : Nat) (hid : account.id.value = id.text)
    (hfloor : account.overdraftFloor = some 0) (hhandle : account.handle = none) (howner : account.ownerId = some ownerId) :
    Stmt.exec (.insertAccount (AccountsRepository.toRow account)) n t =
      (t.office.checkAccount account.currency.code ownerId id).map fun code =>
        ((), [.account id ⟨account.type, code, some 0, none, some ownerId, account.createdAt⟩]) := by
  have hcast : castUuid account.id.value = .ok id := castUuid_ok.2 (hid ▸ id.parse?_text)
  have hfree : ∀ currency, t.handleTaken none currency = false := fun _ => rfl
  have hzero : require (∀ floor ∈ some (0 : Int), Int8 floor) "22003" none = .ok () := if_pos (by decide)
  have howned : (some ownerId).forM (indexText t.entrySize "accounts_owner_id_idx") =
    indexText t.entrySize "accounts_owner_id_idx" ownerId := rfl
  have hunhandled : bindText none = .ok () := bindText_ok.2 (by simp)
  simp only [Stmt.exec, Office.checkAccount, AccountsRepository.toRow, hcast, hfloor, hhandle, howner, hzero, hunhandled]
  cases bindText (some ownerId) with
  | error e => rfl
  | ok u =>
    cases notNull account.currency.code with
    | error e => rfl
    | ok code =>
      cases hrow : t.accounts.get? id with
      | some row => simp [bind, Except.bind, Tables.office, Tables.book, hrow, require, Except.map]
      | none =>
        simp only [bind, Except.bind, Tables.office, Tables.book, hrow, require, hfree, Except.map, Option.map_none,
          Option.isNone_none, Bool.false_eq_true, not_false_eq_true, if_true, howned]
        cases indexText t.entrySize "accounts_owner_id_idx" ownerId <;> rfl

theorem open_leads (hf : Filed sha256 t) {currency : Currency} (input : OpenAccountInput) (id : Uuid) (now : Nat)
    (hof : Currency.of input.currency = .ok currency) :
    Leads t .error (t.office.open_ input id now)
      (AccountsService.body (Account.openUser ⟨id.text⟩ currency input.ownerId now)) := by
  have hexec : ∀ n, Stmt.exec (.insertAccount (AccountsRepository.toRow (Account.openUser ⟨id.text⟩ currency input.ownerId now)))
      n t = (t.office.checkAccount currency.code input.ownerId id).map _ := fun n => insertAccount_checked n rfl rfl rfl rfl
  simp only [Office.open_, hof]
  cases hchecked : t.office.checkAccount currency.code input.ownerId id with
  | error e =>
    rw [hchecked] at hexec
    refine Engine.ends_bind fun n => ⟨fun _ new hx => ?_, fun e' he => ?_⟩
    · cases (hexec n).symm.trans hx
    · cases (hexec n).symm.trans he
      rfl
  | ok code =>
    rw [hchecked] at hexec
    refine Engine.ends_bind fun n => ⟨fun _ new hx => ?_, fun e' he => ?_⟩
    swap
    · cases (hexec n).symm.trans he
    obtain ⟨u, -, -, -, -, code', hcode, hnone, -, -, hnew⟩ := (exec_insertAccount (n := n)).1 hx
    cases (hexec n).symm.trans hx
    cases hnew
    have hcode : currency.code = some code := hcode
    have hnone : t.accounts.get? id = none := hnone
    have hbalance : t.balances.get? id = none := by
      cases hs : t.balances.get? id with
      | none => rfl
      | some s =>
        have hsome := hf.charted id s hs
        rw [hnone] at hsome
        cases hsome
    -- the row just inserted is there for the foreign key
    have hok : ∀ row n', Stmt.exec (.insertBalance id.text) n' (postgres.view t ([] ++ [.account id row])) =
        .ok ((), [.balance id ⟨0, none⟩]) := fun row n' =>
      exec_insertBalance.2 ⟨id, id.parse?_text, hbalance, congrArg Option.isSome (Keyed.get?_set_self ..), rfl⟩
    refine Engine.ends_bind fun n' => ⟨fun _ new hx => ?_, fun e he => ?_⟩
    · cases (hok _ n').symm.trans hx
      exact ⟨Prod.ext rfl (t.office_opened id code input.ownerId now).symm,
        @Recorded.commit sha256 _ _ _ _ hf.recorded (.opened currency code hof hcode hnone hbalance)⟩
    · cases (hok _ n').symm.trans he

/-! ## Transfers -/

section

variable {input : TransferInput} {id : Uuid} {currency : Currency} {amount : Nat} {journal : JournalTransaction}
  {source target : Uuid}

/-- The entry of a transfer. -/
def transferEntry (id source target : Uuid) (amount : Nat) (currency : Currency) : LedgerEntry :=
  ⟨id, currency.code, [⟨source, -amount⟩, ⟨target, amount⟩], none⟩

theorem transfer_spells (hch : Checked input id currency amount journal) (hsource : input.from_ = source.text)
    (htarget : input.to_ = target.text) :
    List.Forall₂ Spells journal.postings (transferEntry id source target amount currency).legs := by
  rw [hch.postings]
  exact .cons ⟨hsource, rfl⟩ (.cons ⟨htarget, rfl⟩ .nil)

theorem Filed.keys (hf : Filed sha256 t) (keys : Keyed String KeyRow) : Filed sha256 { t with keys := keys } :=
  ⟨hf.recorded.keys keys, ⟨hf.audited.supported, hf.audited.trail, hf.audited.known⟩, hf.ordered, hf.charted⟩

variable (sha256) in
/-- What `post` does for a transfer. -/
theorem Filed.transfer_judged {db : Tables} {ws : List Write} (ht : postgres.view db ws = t) (hf : Filed sha256 t)
    (hch : Checked input id currency amount journal) (hsource : input.from_ = source.text) (htarget : input.to_ = target.text) :
    postgres.Ends db
      (fun receipt ws' => t.book.verdict Int8 (some input.ownerId) (transferEntry id source target amount currency) = none ∧
        ∃ b : Booking, b.Valid sha256 t journal currency (transferOptions input.ownerId) ∧ receipt = b.event.payload ∧
          ws' = ws ++ b.writes)
      (fun e => ∃ fault, t.book.verdict Int8 (some input.ownerId) (transferEntry id source target amount currency) =
        some fault ∧ e = failure fault)
      (TransferService.postTransfer sha256 journal currency input.ownerId) ws := by
  have hjudged := LedgerPoster.post_judged sha256 (transferOptions input.ownerId) ht hf
    (transfer_spells hch hsource htarget) hch.journal_id hch.journal_currency rfl ⟨none, trivial, by simp⟩
    (by rw [hch.postings]; exact (by decide : 6 * 2 ≤ 65535))
  refine hjudged.and_yields.mono (fun receipt ws' hy => ⟨hy.1, ?_⟩) fun _ he => he
  obtain ⟨b, hv, hreceipt, hws⟩ := post_yields hy.2
  exact ⟨b, ht ▸ hv, hreceipt, hws⟩

variable (sha256 id currency amount) in
/-- What the office does with a transfer whose key is new. -/
theorem Office.charge_judged (o : Office) (hsource : input.from_ = source.text) (htarget : input.to_ = target.text) :
    (∀ fault, o.book.verdict Int8 (some input.ownerId) (transferEntry id source target amount currency) = some fault →
        o.charge sha256 input currency amount id = (TransferService.recover (failure fault), o)) ∧
      (o.book.verdict Int8 (some input.ownerId) (transferEntry id source target amount currency) = none →
        o.charge sha256 input currency amount id =
          (.ok (.transferred (.ok (some (receiptOf o.book (transferEntry id source target amount currency))))),
            Office.settle
              { o with
                book := o.book.enter (transferEntry id source target amount currency)
                outbox := o.outbox ++ [⟨"transfer.posted", receiptOf o.book (transferEntry id source target amount currency)⟩] }
              (TransferService.claimedKey input.idempotencyKey) (TransferService.fingerprint sha256 input)
              (receiptOf o.book (transferEntry id source target amount currency)))) := by
  simp only [Office.charge, hsource, htarget, castUuid_ok.2 source.parse?_text, castUuid_ok.2 target.parse?_text,
    Office.post]
  constructor
  · intro fault hfault
    simp only [transferEntry] at hfault
    simp only [hfault]
  · intro hnone
    simp only [transferEntry] at hnone ⊢
    simp only [hnone]

/-- The office after a transfer that books. -/
theorem transfer_office (hf : Filed sha256 t) (hch : Checked input id currency amount journal)
    (hsource : input.from_ = source.text) (htarget : input.to_ = target.text) {b : Booking}
    (hv : b.Valid sha256 t journal currency (transferOptions input.ownerId)) (key : Option String) (fingerprint : String) :
    b.event.payload = receiptOf t.book (transferEntry id source target amount currency) ∧
      (postgres.view t (TransferService.writes key fingerprint b)).office =
        Office.settle
          { t.office with
            book := t.book.enter (transferEntry id source target amount currency)
            outbox := t.outbox ++ [⟨"transfer.posted", receiptOf t.book (transferEntry id source target amount currency)⟩] }
          key fingerprint (receiptOf t.book (transferEntry id source target amount currency)) := by
  have hspells := transfer_spells hch hsource htarget
  have hb := booked_transfer t key fingerprint b
  have hevent := hv.receipt hf hch.journal_currency hspells hch.journal_id rfl
  have hpayload : b.event.payload = receiptOf t.book (transferEntry id source target amount currency) :=
    congrArg OutboxRow.payload hevent
  have hentry := hv.entry hch.journal_currency hspells hch.journal_id rfl trivial
  refine ⟨hpayload, Office.ext ?_ (funext fun k => ?_) ?_ (view_entrySize ..)⟩
  · rw [hentry]
    exact hb.book hf.recorded hv
  · show ((postgres.view t (TransferService.writes key fingerprint b)).keys.get? k).map _ = _
    rw [transfer_keys, hpayload]
    show _ = if key = some k then _ else (t.keys.get? k).map _
    by_cases hk : key = some k
    · rw [if_pos hk, if_pos hk]
      rfl
    · rw [if_neg hk, if_neg hk]
  · show (postgres.view t (TransferService.writes key fingerprint b)).outbox = _
    rw [hb.outbox, hevent]
    rfl

variable (sha256) in
theorem Office.transfer_checked (o : Office) (hch : Checked input id currency amount journal) :
    (∀ e, o.claim (TransferService.claimedKey input.idempotencyKey) = .error e →
        o.transfer sha256 input id = (.error e, o)) ∧
      (∀ settled, o.claim (TransferService.claimedKey input.idempotencyKey) = .ok (some settled) →
        o.transfer sha256 input id = o.replay sha256 input settled) ∧
      (o.claim (TransferService.claimedKey input.idempotencyKey) = .ok none →
        o.transfer sha256 input id = o.charge sha256 input currency amount id) := by
  simp only [Office.transfer, hch.supported, hch.parsed, if_neg (Nat.pos_iff_ne_zero.1 hch.positive), if_neg hch.distinct]
  refine ⟨fun e herror => ?_, fun settled hsettled => ?_, fun hnone => ?_⟩
  · simp only [herror]
  · simp only [hsettled]
  · simp only [hnone]

variable (sha256) in
/-- A transfer without a key that nothing is held against is entered. -/
theorem Office.transfer_enters (o : Office) (hch : Checked input id currency amount journal) (hsource : input.from_ = source.text)
    (htarget : input.to_ = target.text) (hkey : input.idempotencyKey = none)
    (hv : o.book.verdict Int8 (some input.ownerId) (transferEntry id source target amount currency) = none) :
    (o.transfer sha256 input id).2.book = o.book.enter (transferEntry id source target amount currency) := by
  have hnone : o.claim (TransferService.claimedKey input.idempotencyKey) = .ok none := by
    rw [hkey]
    rfl
  rw [(Office.transfer_checked sha256 o hch).2.2 hnone, (Office.charge_judged sha256 id currency amount o hsource htarget).2 hv]
  rfl

/-- The office takes the keys the database takes. -/
theorem Tables.office_claim (t : Tables) (key : String) :
    t.office.claim (some key) = (t.checkKey key).map fun _ => t.office.settled key := by
  have hsettled : t.office.settled key = (t.keys.get? key).map fun row => (row.fingerprint, row.response) := rfl
  have hsize : t.office.entrySize = t.entrySize := rfl
  simp only [Office.claim, Tables.checkKey, hsettled, hsize]
  cases bindText (some key) with
  | error e => rfl
  | ok u =>
    cases t.keys.get? key with
    | some row => rfl
    | none => cases indexText t.entrySize "idempotency_keys_pkey" key <;> rfl

variable (sha256) in
theorem transfer_leads (hf : Filed sha256 t) (hch : Checked input id currency amount journal)
    (hsource : input.from_ = source.text) (htarget : input.to_ = target.text) :
    Leads t TransferService.recover (t.office.transfer sha256 input id)
      (TransferService.body sha256 input currency journal) := by
  obtain ⟨hrefused, hcharged⟩ := Office.charge_judged sha256 id currency amount t.office hsource htarget
  obtain ⟨hbad, hreplayed, hnew⟩ := Office.transfer_checked sha256 t.office hch
  have hrecorded : ∀ (key : Option String) (fingerprint : String) (b : Booking),
      b.Valid sha256 t journal currency (transferOptions input.ownerId) →
      Recorded (postgres.view t (TransferService.writes key fingerprint b)) := fun key fingerprint b hv =>
    hf.recorded.booked hv hch.journal_currency (booked_transfer ..)
  rw [TransferService.body, TransferService.run]
  cases hk : TransferService.claimedKey input.idempotencyKey with
  | none =>
    rw [hk] at hcharged hnew
    rw [Leads, hnew rfl]
    refine Engine.ends_bind (Engine.ends_bind ((hf.transfer_judged sha256 (view_nil t) hch hsource htarget).mono
      (fun receipt ws hpost => ?_) fun e he => ?_))
    · obtain ⟨hnone, b, hv, rfl, rfl⟩ := hpost
      obtain ⟨hpayload, hafter⟩ := transfer_office hf hch hsource htarget hv none (TransferService.fingerprint sha256 input)
      refine ⟨?_, hrecorded none "" b hv⟩
      rw [hcharged hnone, hpayload]
      exact Prod.ext rfl hafter.symm
    · obtain ⟨fault, hfault, rfl⟩ := he
      exact hrefused fault hfault
  | some key =>
    rw [hk] at hcharged hreplayed hnew hbad
    refine Engine.ends_bind (Engine.ends_bind (claim_ends.and_yields.mono (fun c ws hc => ?_) fun e he => ?_))
    swap
    · have hrefused : t.checkKey key = .error e := he
      obtain ⟨error, rfl⟩ := Tables.checkKey_error hrefused
      exact hbad _ (by rw [t.office_claim, hrefused]; rfl)
    have hchecked : t.checkKey key = .ok () := hc.1
    have hclaimed : t.office.claim (some key) = .ok (t.office.settled key) := by rw [t.office_claim, hchecked]; rfl
    obtain ⟨hnone, rfl, rfl⟩ | ⟨row, hrow, rfl, rfl⟩ := claim_yields hc.2
    · -- the key is new
      have hnone : t.keys.get? key = none := hnone
      have hsettled : t.office.settled key = none := congrArg (Option.map fun row : KeyRow => (row.fingerprint, row.response)) hnone
      rw [hnew (hclaimed.trans (congrArg Except.ok hsettled))]
      have hclaim : postgres.view t [.key key ⟨TransferService.fingerprint sha256 input, none, none⟩] =
          { t with keys := t.keys.set key ⟨TransferService.fingerprint sha256 input, none, none⟩ } := rfl
      have hpost := (hf.keys (t.keys.set key ⟨TransferService.fingerprint sha256 input, none, none⟩)).transfer_judged
        sha256 hclaim hch hsource htarget
      refine Engine.ends_bind (hpost.mono (fun receipt ws hpost => ?_) fun e he => ?_)
      · obtain ⟨hnone, b, hv, rfl, rfl⟩ := hpost
        have hv : b.Valid sha256 t journal currency (transferOptions input.ownerId) := hv.of_keys
        have hid : b.id = id := hch.id_of_parse hv.id
        have hkey : (postgres.view t ([.key key ⟨TransferService.fingerprint sha256 input, none, none⟩] ++
            b.writes)).keys.get? key = some ⟨TransferService.fingerprint sha256 input, none, none⟩ := b.claimed_key ..
        have hjournal : ((postgres.view t ([.key key ⟨TransferService.fingerprint sha256 input, none, none⟩] ++
            b.writes)).journals.get? id).isSome := by
          rw [view_append, hclaim, (booked_writes _ b).journals, hid, Keyed.get?_set_self]
          rfl
        obtain ⟨hpayload, hafter⟩ := transfer_office hf hch hsource htarget hv (some key)
          (TransferService.fingerprint sha256 input)
        rw [hch.journal_id]
        refine Engine.ends_bind ((complete_ends (Tables.checkKey_ok.1 hchecked).1 hkey hjournal).mono (fun _ ws hws => ?_) fun e he => he.elim)
        have hwrites : ws = TransferService.writes (some key) (TransferService.fingerprint sha256 input) b := by
          rw [hws, TransferService.writes, hid]
          rfl
        refine ⟨?_, hwrites ▸ hrecorded (some key) _ b hv⟩
        rw [hwrites]
        rw [hcharged hnone, hpayload]
        exact Prod.ext rfl hafter.symm
      · obtain ⟨fault, hfault, rfl⟩ := he
        exact hrefused fault hfault
    · -- the key is taken
      have hrow : t.keys.get? key = some row := hrow
      have hsettled : t.office.settled key = some (row.fingerprint, row.response) :=
        congrArg (Option.map fun row : KeyRow => (row.fingerprint, row.response)) hrow
      rw [hreplayed _ (hclaimed.trans (congrArg Except.ok hsettled))]
      show postgres.Ends t _ _ (if row.fingerprint ≠ TransferService.fingerprint sha256 input then
        Prog.throw (.transfer .idempotencyConflict) else Prog.pure row.response) _
      split
      · rename_i hne
        exact if_pos hne
      · rename_i heq
        exact ⟨if_neg heq, hf.recorded⟩

end

/-! ## Reversals -/

section

variable {transactionId : String} {target id : Uuid} {row : JournalRow} {original : OriginalTransaction} {currency : Currency}
  {journal : JournalTransaction}

theorem compensated_spells (hf : Filed sha256 t) (hrow : t.journals.get? target = some row)
    (ho : t.original target = some original) (hcomp : Compensated original id currency journal) :
    List.Forall₂ Spells journal.postings ((t.entry (target, row)).reverse id).legs ∧
      currency.code = ((t.entry (target, row)).reverse id).currency := by
  obtain ⟨row', hrow', rfl⟩ := Tables.original_eq_some ho
  obtain rfl : row = row' := Option.some.inj (hrow.symm.trans hrow')
  constructor
  · rw [hcomp.postings, ReverseService.compensatingLegs, List.map_map, hf.ordered.bySeq_postingsOf]
    show List.Forall₂ Spells _ (((t.postingsOf target).map PostingRow.leg).map _)
    rw [List.map_map, List.forall₂_map_left_iff, List.forall₂_map_right_iff]
    exact List.forall₂_same.2 fun p _ => ⟨rfl, rfl⟩
  · obtain ⟨c, hof, hcode⟩ := Currency.of_supported (hf.recorded.journal target row hrow).1
    obtain rfl : c = currency := Except.ok.inj (hof.symm.trans hcomp.supported)
    exact hcode

variable (sha256) in
theorem reverse_leads (hf : Filed sha256 t) (htarget : Uuid.parse? transactionId = some target)
    (hrow : t.journals.get? target = some row) (ho : t.original target = some original)
    (hcomp : Compensated original id currency journal) :
    Leads t ReverseService.recover (t.office.reverse transactionId id)
      (ReverseService.body sha256 transactionId journal currency) := by
  have hfind : t.office.book.find target = some (t.entry (target, row)) := by
    show t.book.find target = _
    rw [t.book_find, hrow, Option.map_some]
  have hreversed : t.office.book.reversed target = (t.reversalOf target).isSome := t.book_reversed target
  have hread : postgres.read t (JournalTransactionsRepository.hasReversal transactionId) =
      .ok (t.reversalOf target).isSome := by
    simp only [JournalTransactionsRepository.hasReversal, Prog.ask, Prog.query_bind, Prog.pure_bind,
      Engine.read, Query.answer, castUuid_ok.2 htarget, bind, Except.bind, pure, Except.pure]
  simp only [Leads, Office.reverse, castUuid_ok.2 htarget, hfind, hreversed]
  refine Engine.ends_bind (Engine.ends_lift (fun reversed hr => ?_) fun e he => ?_)
  swap
  · cases hread.symm.trans he
  obtain rfl : _ = reversed := Except.ok.inj (hread.symm.trans hr)
  cases hrev : t.reversalOf target with
  | some r =>
    simp only [Option.isSome_some, if_true]
    rfl
  | none =>
    obtain ⟨hspells, hcode⟩ := compensated_spells hf hrow ho hcomp
    have hcast : Cast (reverseOptions transactionId).reversesTransactionId ((t.entry (target, row)).reverse id).reverses :=
      htarget
    have hlink : Linkable t (reverseOptions transactionId).reversesTransactionId := by
      refine ⟨_, hcast, ?_⟩
      rintro _ ⟨⟩
      exact ⟨hrev, congrArg Option.isSome hrow⟩
    have hjudged := LedgerPoster.post_judged sha256 (reverseOptions transactionId) (view_nil t) hf hspells
      hcomp.journal_id hcomp.journal_currency hcode hlink (hf.recorded.compensating_parameters ho hcomp)
    simp only [Option.isSome_none, Bool.false_eq_true, if_false, Office.post]
    show postgres.Ends t _ _ (Prog.bind (LedgerPoster.post sha256 journal currency (reverseOptions transactionId))
      fun receipt => .pure (Reply.reversed (.ok receipt))) []
    refine Engine.ends_bind (hjudged.and_yields.mono (fun receipt ws hy => ?_) fun e he => ?_)
    · obtain ⟨hnone, hy⟩ := hy
      obtain ⟨b, hv, rfl, rfl⟩ := post_yields hy
      have hb := booked_writes t b
      have hevent := hv.receipt hf hcomp.journal_currency hspells hcomp.journal_id hcode
      have hentry := hv.entry hcomp.journal_currency hspells hcomp.journal_id hcode hcast
      have hnone : t.office.book.verdict Int8 none ((t.entry (target, row)).reverse id) = none := hnone
      have hafter : (postgres.view t b.writes).office =
          { t.office with
            book := t.book.enter ((t.entry (target, row)).reverse id)
            outbox := t.outbox ++ [⟨"transfer.reversed", receiptOf t.book ((t.entry (target, row)).reverse id)⟩] } := by
        refine Office.ext ?_ (funext fun k => ?_) ?_ (view_entrySize ..)
        · rw [hentry]
          exact hb.book hf.recorded hv
        · show ((postgres.view t b.writes).keys.get? k).map _ = _
          rw [booking_keys]
          rfl
        · show (postgres.view t b.writes).outbox = _
          rw [hb.outbox, hevent]
          rfl
      refine ⟨?_, hf.recorded.booked hv hcomp.journal_currency hb⟩
      simp only [hnone]
      rw [hevent]
      exact Prod.ext rfl hafter.symm
    · obtain ⟨fault, hfault, rfl⟩ := he
      have hfault : t.office.book.verdict Int8 none ((t.entry (target, row)).reverse id) = some fault := hfault
      simp only [hfault]

end

/-! ## Requests -/

theorem Filed.serve_open (hf : Filed sha256 w.db) (input : OpenAccountInput) (id : Uuid) (now : Nat) :
    (serve sha256 (.open_ input id now) w).1 = (w.db.office.open_ input id now).1 ∧
      (serve sha256 (.open_ input id now) w).2.db.office = (w.db.office.open_ input id now).2 := by
  cases hof : Currency.of input.currency with
  | error e =>
    have hread : postgres.read w.db (AccountsService.open_ input id now) = .ok (.reply (.opened (.error .unknownCurrency))) := by
      rw [AccountsService.open_, hof]
      rfl
    rw [serve, Request.call, Engine.serve_reply hread, Office.open_, hof]
    exact ⟨rfl, rfl⟩
  | ok currency =>
    refine (open_leads hf input id now hof).serve ?_
    rw [Request.call, AccountsService.open_, hof]
    rfl

theorem Filed.serve_transfer (hf : Filed sha256 w.db) {input : TransferInput} (ha : input.Admitted)
    (hc : Canonical input.from_ ∧ Canonical input.to_) (id : Uuid) :
    (serve sha256 (.transfer input id) w).1 = (w.db.office.transfer sha256 input id).1 ∧
      (serve sha256 (.transfer input id) w).2.db.office = (w.db.office.transfer sha256 input id).2 := by
  -- what is refused before the transaction
  have refused : ∀ code, TransferService.transfer sha256 input id = TransferService.refuse code →
      w.db.office.transfer sha256 input id = (.ok (.transferred (.error code)), w.db.office) →
      (serve sha256 (.transfer input id) w).1 = (w.db.office.transfer sha256 input id).1 ∧
        (serve sha256 (.transfer input id) w).2.db.office = (w.db.office.transfer sha256 input id).2 := by
    intro code hcall hoffice
    rw [hoffice, MiniLedger.serve, Request.call, hcall]
    exact ⟨rfl, rfl⟩
  cases hof : Currency.of input.currency with
  | error e => exact refused .unknownCurrency (by rw [TransferService.transfer, hof]) (by rw [Office.transfer, hof])
  | ok currency =>
    cases hamount : TransferService.parseAmount input.amount with
    | none =>
      exact refused .nonPositiveAmount (by simp only [TransferService.transfer, hof, hamount])
        (by simp only [Office.transfer, hof, hamount])
    | some amount =>
      by_cases hzero : amount = 0
      · exact refused .nonPositiveAmount (by simp only [TransferService.transfer, hof, hamount, if_pos hzero])
          (by simp only [Office.transfer, hof, hamount, if_pos hzero])
      by_cases hsame : input.from_ = input.to_
      · exact refused .sameAccount
          (by simp only [TransferService.transfer, hof, hamount, if_neg hzero, if_pos hsame])
          (by simp only [Office.transfer, hof, hamount, if_neg hzero, if_pos hsame])
      obtain ⟨journal, hch, hcall⟩ := transfer_checked sha256 hof hamount (Nat.pos_of_ne_zero hzero) hsame id
      obtain ⟨source, hsource⟩ := parse?_of_isUuid ha.1
      obtain ⟨target, htarget⟩ := parse?_of_isUuid ha.2.1
      refine (transfer_leads sha256 hf hch (Uuid.text_of_canonical hc.1 hsource).symm
        (Uuid.text_of_canonical hc.2 htarget).symm).serve ?_
      rw [Request.call, hcall]
      rfl

theorem Filed.serve_reverse (hf : Filed sha256 w.db) (transactionId : String) (id : Uuid) :
    (serve sha256 (.reverse transactionId id) w).1 = (w.db.office.reverse transactionId id).1 ∧
      (serve sha256 (.reverse transactionId id) w).2.db.office = (w.db.office.reverse transactionId id).2 := by
  have hread : postgres.read w.db (ReverseService.reverse sha256 transactionId id) =
      ((castUuid transactionId).map w.db.original).bind fun o =>
        postgres.read w.db (ReverseService.plan sha256 transactionId id o) := by
    rw [ReverseService.reverse, Engine.read_bind, original_read]
  cases hc : castUuid transactionId with
  | error e =>
    rw [hc] at hread
    rw [serve, Request.call, Engine.serve_error hread, Office.reverse, hc]
    exact ⟨rfl, rfl⟩
  | ok target =>
    have htarget := castUuid_ok.1 hc
    rw [hc] at hread
    cases hrow : w.db.journals.get? target with
    | none =>
      have hfind : w.db.office.book.find target = none := by
        show w.db.book.find target = none
        rw [Tables.book_find, hrow, Option.map_none]
      have ho : w.db.original target = none := by rw [Tables.original, hrow, Option.map_none]
      have hread : postgres.read w.db (ReverseService.reverse sha256 transactionId id) =
          .ok (.reply (.reversed (.error .unknownTransaction))) := by
        rw [hread, Except.map, Except.bind, ho]
        rfl
      rw [serve, Request.call, Engine.serve_reply hread, Office.reverse, hc]
      simp only [hfind]
      exact ⟨trivial, trivial⟩
    | some row =>
      obtain ⟨original, ho⟩ : ∃ original, w.db.original target = some original := by
        rw [Tables.original, hrow]
        exact ⟨_, rfl⟩
      obtain ⟨currency, journal, hof, hcreate, hcomp⟩ := hf.recorded.compensated ho id
      refine (reverse_leads sha256 hf htarget hrow ho hcomp).serve ?_
      rw [Request.call, hread, Except.map, Except.bind, ho, ReverseService.plan, hof]
      simp only [hcreate]
      rfl

/-- **A request does what the book says.** -/
theorem Filed.serve (hf : Filed sha256 w.db) {request : Request} (ha : request.Admitted) (hc : request.CanonicalIds) :
    (serve sha256 request w).1 = (w.db.office.serve sha256 request).1 ∧
      (serve sha256 request w).2.db.office = (w.db.office.serve sha256 request).2 := by
  cases request with
  | open_ input id now => exact hf.serve_open input id now
  | transfer input id => exact hf.serve_transfer ha hc id
  | reverse transactionId id => exact hf.serve_reverse transactionId id

end MiniLedger
