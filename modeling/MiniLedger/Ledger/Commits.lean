import MiniLedger.Ledger.Posted
import MiniLedger.Ledger.Services

/-!
# What a request can commit

One case analysis for each use case: if its transaction commits on the tables `db`, then
these are its writes and its reply. A request alone and a request among others commit in
this one sense (`Engine.Commits`), so every invariant of the ledger is proved from here.
-/

namespace MiniLedger

open Collections Sessions

variable {sha256 : String → String} {db : Tables} {ws : List Write} {r : Reply}

/-! ## Opening an account -/

/-- The transaction of `open_`. -/
def AccountsService.body (account : Account) : InTx Reply :=
  Prog.bind (AccountsRepository.save account) fun _ =>
    Prog.bind (AccountBalancesRepository.initialize_ account.id) fun _ => .pure (.opened (.ok account))

def AccountsService.writes (id : Uuid) (code ownerId : String) (now : Nat) : List Write :=
  [.account id ⟨.user, code, some 0, none, some ownerId, now⟩, .balance id ⟨0, none⟩]

theorem open_commits {input : OpenAccountInput} {id : Uuid} {now : Nat}
    (h : postgres.Commits db (AccountsService.open_ input id now) r ws) :
    ∃ currency code, Currency.of input.currency = .ok currency ∧ currency.code = some code ∧
      db.accounts.get? id = none ∧ db.balances.get? id = none ∧
      ws = AccountsService.writes id code input.ownerId now ∧
      r = .opened (.ok (Account.openUser ⟨id.text⟩ currency input.ownerId now)) := by
  obtain ⟨body, recover, hread, hy, -⟩ := h
  unfold AccountsService.open_ at hread
  split at hread
  · cases hread
  · rename_i currency hc
    cases hread
    obtain ⟨_, m₁, ysave, h₁⟩ := Engine.yields_bind.1 hy
    obtain ⟨n, new, hx, rfl⟩ := Engine.yields_send.1 ysave
    obtain ⟨u, hu, -, -, -, code, hcode, hnone, -, -, rfl⟩ := (exec_insertAccount (n := n)).1 hx
    obtain ⟨_, m₂, yinit, rfl, rfl⟩ := Engine.yields_bind.1 h₁
    obtain ⟨n', new', hx', rfl⟩ := Engine.yields_send.1 yinit
    obtain ⟨u', hu', hnone', -, rfl⟩ := (exec_insertBalance (n := n')).1 hx'
    obtain rfl : u = id := Option.some.inj (hu.symm.trans id.parse?_text)
    obtain rfl : u' = u := Option.some.inj (hu'.symm.trans u.parse?_text)
    exact ⟨currency, code, hc, hcode, hnone, hnone', rfl, rfl⟩

/-! ## Transfers -/

def debit (from_ : String) (amount : Nat) (currency : Currency) : Posting := ⟨⟨from_⟩, ⟨-amount, currency⟩⟩

def credit (to_ : String) (amount : Nat) (currency : Currency) : Posting := ⟨⟨to_⟩, ⟨amount, currency⟩⟩

/-- The legs of a transfer. -/
def transferLegs (from_ to_ : String) (amount : Nat) (currency : Currency) : List Posting :=
  [debit from_ amount currency, credit to_ amount currency]

/-- The writes of a transfer that books `b`, with or without a key. -/
def TransferService.writes (key : Option String) (fingerprint : String) (b : Booking) : List Write :=
  match key with
  | none => b.writes
  | some key =>
    .key key ⟨fingerprint, none, none⟩ :: b.writes ++ [.key key ⟨fingerprint, some b.id, some b.event.payload⟩]

def transferOptions (ownerId : String) : PostOptions := ⟨some ownerId, "transfer.posted", none⟩

/-- A transfer that has passed the checks before its transaction. -/
structure Checked (input : TransferInput) (id : Uuid) (currency : Currency) (amount : Nat)
    (journal : JournalTransaction) : Prop where
  supported : Currency.of input.currency = .ok currency
  parsed : TransferService.parseAmount input.amount = some amount
  positive : 0 < amount
  distinct : input.from_ ≠ input.to_
  journal_id : journal.id = id.text
  journal_currency : journal.currency = currency
  postings : journal.postings = transferLegs input.from_ input.to_ amount currency

/-- The journal's text of an id is read back as the id of the transfer. -/
theorem Checked.id_of_parse {input : TransferInput} {id u : Uuid} {currency : Currency} {amount : Nat}
    {journal : JournalTransaction} (h : Checked input id currency amount journal) (hu : Uuid.parse? journal.id = some u) :
    u = id := by
  rw [h.journal_id, id.parse?_text] at hu
  exact (Option.some.inj hu).symm

/-- The transaction of a transfer, once its input is checked. -/
def TransferService.body (sha256 : String → String) (input : TransferInput) (currency : Currency)
    (journal : JournalTransaction) : InTx Reply :=
  Prog.bind (run sha256 journal currency input.ownerId input.idempotencyKey (fingerprint sha256 input)) fun receipt =>
    .pure (.transferred (.ok receipt))

/-- A transfer refuses its input or runs one transaction. -/
theorem transfer_plan (sha256 : String → String) (input : TransferInput) (id : Uuid) :
    (∃ e, TransferService.transfer sha256 input id = TransferService.refuse e) ∨
      (∃ e, TransferService.transfer sha256 input id = .throw e) ∨
      ∃ currency amount journal, Checked input id currency amount journal ∧
        TransferService.transfer sha256 input id =
          .pure (.transaction (TransferService.body sha256 input currency journal) TransferService.recover) := by
  unfold TransferService.transfer
  split
  · exact .inl ⟨_, rfl⟩
  · rename_i currency hc
    split
    · exact .inl ⟨_, rfl⟩
    · rename_i amount ha
      split
      · exact .inl ⟨_, rfl⟩
      · rename_i hpos
        split
        · exact .inl ⟨_, rfl⟩
        · rename_i hne
          split
          · exact .inr (.inl ⟨_, rfl⟩)
          · exact .inl ⟨_, rfl⟩
          · rename_i journal hj
            obtain ⟨hid, hps, hcur⟩ := JournalTransaction.create_ok hj
            refine .inr (.inr ⟨currency, amount, journal, ?_, rfl⟩)
            exact ⟨hc, ha, Nat.pos_of_ne_zero hpos, hne, hid, hcur _ rfl, hps⟩

/-- `post` reads no idempotency key. -/
theorem Booking.Valid.of_keys {keys : Keyed String KeyRow} {journal : JournalTransaction} {currency : Currency}
    {options : PostOptions} {b : Booking} (h : b.Valid sha256 { db with keys := keys } journal currency options) :
    b.Valid sha256 db journal currency options :=
  ⟨h.id, h.parameters, h.code, h.fresh, h.target, h.unreversed, h.exists_target, h.account, h.owner, h.floor, h.lock, h.locked,
    h.legs, h.rows, h.balances, h.event⟩

theorem claim_yields {db : Tables} {ws ws' : List Write} {key fingerprint : String} {c : IdempotencyClaim}
    (h : postgres.Yields db (IdempotencyRepository.claim key fingerprint) ws c ws') :
    ((postgres.view db ws).keys.get? key = none ∧ c = .owned ∧ ws' = ws ++ [.key key ⟨fingerprint, none, none⟩]) ∨
      ∃ row, (postgres.view db ws).keys.get? key = some row ∧ c = .taken row.fingerprint row.response ∧ ws' = ws := by
  obtain ⟨inserted, m, yinsert, h₁⟩ := Engine.yields_bind.1 h
  obtain ⟨n, new, hx, rfl⟩ := Engine.yields_send.1 yinsert
  obtain ⟨hstore, hx⟩ := (exec_insertKey (n := n)).1 hx
  cases hg : (postgres.view db ws).keys.get? key with
  | none =>
    rw [hg] at hx
    obtain ⟨-, rfl, rfl⟩ := hx
    obtain ⟨rfl, rfl⟩ := h₁
    exact .inl ⟨rfl, rfl, rfl⟩
  | some row =>
    rw [hg] at hx
    obtain ⟨rfl, rfl⟩ := hx
    rw [List.append_nil] at h₁
    obtain ⟨o, m, yask, h₂⟩ := Engine.yields_bind.1 h₁
    obtain ⟨hread, rfl⟩ := Engine.yields_lift.1 yask
    have hbind : bindText (some key) = .ok () := bindText_ok.2 (by simpa using hstore)
    simp only [Prog.ask, Engine.read, Query.answer, hbind, bind, Except.bind, pure, Except.pure] at hread
    cases hread
    rw [hg] at h₂
    obtain ⟨rfl, rfl⟩ := h₂
    exact .inr ⟨row, rfl, rfl, rfl⟩

theorem complete_yields {db : Tables} {ws ws' : List Write} {key : String} {id : Uuid} {response : TransferReceipt}
    {row : KeyRow} {u : Unit} (hkey : (postgres.view db ws).keys.get? key = some row)
    (h : postgres.Yields db (IdempotencyRepository.complete key id.text response) ws u ws') :
    ws' = ws ++ [.key key ⟨row.fingerprint, some id, some response⟩] := by
  obtain ⟨n, new, hx, rfl⟩ := Engine.yields_send.1 h
  obtain ⟨u, hu, -, ⟨hnone, -⟩ | ⟨row', hrow, -, rfl⟩⟩ := (exec_completeKey (n := n)).1 hx
  · cases hnone.symm.trans hkey
  · cases hrow.symm.trans hkey
    cases hu.symm.trans id.parse?_text
    rfl

/-- The claimed key stands while the booking is written. -/
theorem Booking.claimed_key (b : Booking) (db : Tables) (key fingerprint : String) :
    (postgres.view db ([.key key ⟨fingerprint, none, none⟩] ++ b.writes)).keys.get? key = some ⟨fingerprint, none, none⟩ := by
  rw [view_append, view_keys _ b.writes, b.writes_key]
  exact Keyed.get?_set_self ..

theorem transfer_commits {input : TransferInput} {id : Uuid}
    (h : postgres.Commits db (TransferService.transfer sha256 input id) r ws) :
    ∃ currency amount journal, Checked input id currency amount journal ∧
      ((∃ key row, TransferService.claimedKey input.idempotencyKey = some key ∧ db.keys.get? key = some row ∧
          row.fingerprint = TransferService.fingerprint sha256 input ∧ r = .transferred (.ok row.response) ∧ ws = []) ∨
        ∃ b : Booking, b.Valid sha256 db journal currency (transferOptions input.ownerId) ∧
          (∀ key ∈ TransferService.claimedKey input.idempotencyKey, db.keys.get? key = none) ∧
          r = .transferred (.ok (some b.event.payload)) ∧
          ws = TransferService.writes (TransferService.claimedKey input.idempotencyKey)
            (TransferService.fingerprint sha256 input) b) := by
  obtain ⟨body, recover, hread, hy, -⟩ := h
  rcases transfer_plan sha256 input id with ⟨e, hp⟩ | ⟨e, hp⟩ | ⟨currency, amount, journal, hch, hp⟩
  · rw [hp] at hread; cases hread
  · rw [hp] at hread; cases hread
  rw [hp] at hread
  cases hread
  refine ⟨currency, amount, journal, hch, ?_⟩
  obtain ⟨receipt, m, hrun, rfl, rfl⟩ := Engine.yields_bind.1 hy
  unfold TransferService.run at hrun
  cases hk : TransferService.claimedKey input.idempotencyKey with
  | none =>
    rw [hk] at hrun
    obtain ⟨receipt, m, hpost, rfl, rfl⟩ := Engine.yields_bind.1 hrun
    obtain ⟨b, hb, rfl, rfl⟩ := post_yields hpost
    exact .inr ⟨b, hb, by simp, rfl, rfl⟩
  | some key =>
    rw [hk] at hrun
    obtain ⟨c, m, hclaim, hrest⟩ := Engine.yields_bind.1 hrun
    obtain ⟨hnone, rfl, rfl⟩ | ⟨row, hrow, rfl, rfl⟩ := claim_yields hclaim
    · obtain ⟨receipt, m₁, hpost, h₁⟩ := Engine.yields_bind.1 hrest
      obtain ⟨b, hb, rfl, rfl⟩ := post_yields hpost
      have hb : b.Valid sha256 db journal currency (transferOptions input.ownerId) := hb.of_keys
      have hid : b.id = id := hch.id_of_parse hb.id
      have hkey : (postgres.view db ([] ++ [.key key ⟨TransferService.fingerprint sha256 input, none, none⟩] ++
          b.writes)).keys.get? key = some ⟨TransferService.fingerprint sha256 input, none, none⟩ := b.claimed_key ..
      obtain ⟨_, m₂, hcomplete, rfl, rfl⟩ := Engine.yields_bind.1 h₁
      rw [hch.journal_id] at hcomplete
      obtain rfl := complete_yields hkey hcomplete
      refine .inr ⟨b, hb, ?_, rfl, ?_⟩
      · rintro _ ⟨⟩; exact hnone
      · rw [TransferService.writes, hid]; rfl
    · change postgres.Yields db (if row.fingerprint ≠ _ then _ else _) _ _ _ at hrest
      split at hrest
      · exact hrest.elim
      · rename_i hf
        obtain ⟨rfl, rfl⟩ := hrest
        exact .inl ⟨key, row, rfl, hrow, by simpa using hf, rfl, rfl⟩

/-! ## Reversals -/

/-- The transaction `id` as a reversal reads it. -/
def Tables.original (t : Tables) (id : Uuid) : Option OriginalTransaction :=
  (t.journals.get? id).map fun row =>
    ⟨row.currency, (Tables.bySeq (t.postingsOf id)).map fun p => (p.accountId, p.amount)⟩

theorem Tables.original_eq_some {t : Tables} {id : Uuid} {original : OriginalTransaction} (h : t.original id = some original) :
    ∃ row, t.journals.get? id = some row ∧
      original = ⟨row.currency, (Tables.bySeq (t.postingsOf id)).map fun p => (p.accountId, p.amount)⟩ := by
  obtain ⟨row, hrow, hsame⟩ := Option.map_eq_some_iff.1 h
  exact ⟨row, hrow, hsame.symm⟩

theorem original_read (t : Tables) (transactionId : String) :
    postgres.read t (JournalTransactionsRepository.findById transactionId) =
      (castUuid transactionId).map t.original := by
  simp only [JournalTransactionsRepository.findById, Prog.ask, Prog.monad_bind, Prog.query_bind, Prog.pure_bind,
    Engine.read, Query.answer]
  cases hc : castUuid transactionId with
  | error e => rfl
  | ok id =>
    simp only [bind, Except.bind, pure, Except.pure, Except.map, Tables.original]
    cases hg : t.journals.get? id with
    | none => rfl
    | some row =>
      simp only [Option.map_some, Engine.read, Query.answer, hc, bind, Except.bind, pure, Except.pure]

/-- A reversal that has passed the checks before its transaction. -/
structure Compensated (original : OriginalTransaction) (id : Uuid) (currency : Currency)
    (journal : JournalTransaction) : Prop where
  supported : Currency.of original.currency = .ok currency
  journal_id : journal.id = id.text
  journal_currency : journal.currency = currency
  postings : journal.postings = ReverseService.compensatingLegs original currency

theorem reverse_plan (sha256 : String → String) (transactionId : String) (id : Uuid) (o : Option OriginalTransaction) :
    ReverseService.plan sha256 transactionId id o = .pure (.reply (.reversed (.error .unknownTransaction))) ∨
      (∃ e, ReverseService.plan sha256 transactionId id o = .throw e) ∨
      ∃ original currency journal, o = some original ∧ Compensated original id currency journal ∧
        ReverseService.plan sha256 transactionId id o =
          .pure (.transaction (ReverseService.body sha256 transactionId journal currency) ReverseService.recover) := by
  unfold ReverseService.plan
  split
  · exact .inl rfl
  · rename_i original
    split
    · exact .inr (.inl ⟨_, rfl⟩)
    · rename_i currency hc
      split
      · exact .inr (.inl ⟨_, rfl⟩)
      · exact .inr (.inl ⟨_, rfl⟩)
      · rename_i journal hj
        obtain ⟨hid, hps, hcur⟩ := JournalTransaction.create_ok hj
        refine .inr (.inr ⟨original, currency, journal, rfl, ⟨hc, hid, ?_, hps⟩, rfl⟩)
        have hne := hps ▸ journal.nonempty
        obtain ⟨p, ps, hp⟩ := List.exists_cons_of_ne_nil hne
        have hmem : p ∈ ReverseService.compensatingLegs original currency := hp ▸ List.mem_cons_self ..
        obtain ⟨q, -, rfl⟩ := List.mem_map.1 hmem
        exact hcur _ (by rw [hp]; rfl)

def reverseOptions (transactionId : String) : PostOptions := ⟨none, "transfer.reversed", some transactionId⟩

theorem reverse_commits {transactionId : String} {id : Uuid}
    (h : postgres.Commits db (ReverseService.reverse sha256 transactionId id) r ws) :
    ∃ target original currency journal, Uuid.parse? transactionId = some target ∧ db.original target = some original ∧
      Compensated original id currency journal ∧ db.reversalOf target = none ∧
      ∃ b : Booking, b.Valid sha256 db journal currency (reverseOptions transactionId) ∧ b.reverses = some target ∧
        r = .reversed (.ok b.event.payload) ∧ ws = b.writes := by
  obtain ⟨body, recover, hread, hy, -⟩ := h
  rw [ReverseService.reverse, Engine.read_bind, original_read] at hread
  cases hc : castUuid transactionId with
  | error e => rw [hc] at hread; cases hread
  | ok target =>
    rw [hc] at hread
    change postgres.read db (ReverseService.plan sha256 transactionId id (db.original target)) = _ at hread
    rcases reverse_plan sha256 transactionId id (db.original target)
      with hp | ⟨e, hp⟩ | ⟨original, currency, journal, ho, hcomp, hp⟩
    · rw [hp] at hread; cases hread
    · rw [hp] at hread; cases hread
    rw [hp] at hread
    cases hread
    refine ⟨target, original, currency, journal, castUuid_ok.1 hc, ho, hcomp, ?_⟩
    obtain ⟨reversed, m, yread, h₁⟩ := Engine.yields_bind.1 hy
    obtain ⟨hrev, rfl⟩ := Engine.yields_lift.1 yread
    obtain ⟨u, hu, rfl⟩ := JournalTransactionsRepository.hasReversal_read hrev
    obtain rfl : u = target := Option.some.inj (hu.symm.trans (castUuid_ok.1 hc))
    cases hrow : Tables.reversalOf (postgres.view db []) u with
    | some id' => rw [hrow] at h₁; exact h₁.elim
    | none =>
      rw [hrow] at h₁
      obtain ⟨receipt, m, hpost, rfl, rfl⟩ := Engine.yields_bind.1 h₁
      obtain ⟨b, hb, rfl, rfl⟩ := post_yields hpost
      refine ⟨hrow, b, hb, ?_, rfl, rfl⟩
      have ht := hb.target
      cases hbr : b.reverses with
      | none => rw [hbr] at ht; exact ht.elim
      | some t =>
        rw [hbr] at ht
        exact congrArg some (Option.some.inj (ht.symm.trans hu))

/-! ## Any request -/

/-- What a request that commits on `db` replied and wrote. -/
inductive Committed (sha256 : String → String) (db : Tables) : Request → Reply → List Write → Prop where
  | opened {input id now} (currency code) (supported : Currency.of input.currency = .ok currency)
      (hcode : currency.code = some code) (newAccount : db.accounts.get? id = none)
      (newBalance : db.balances.get? id = none) :
      Committed sha256 db (.open_ input id now)
        (.opened (.ok (Account.openUser ⟨id.text⟩ currency input.ownerId now)))
        (AccountsService.writes id code input.ownerId now)
  | replayed {input id} (currency amount journal key row) (checked : Checked input id currency amount journal)
      (claimed : TransferService.claimedKey input.idempotencyKey = some key) (found : db.keys.get? key = some row)
      (same : row.fingerprint = TransferService.fingerprint sha256 input) :
      Committed sha256 db (.transfer input id) (.transferred (.ok row.response)) []
  | transferred {input id} (currency amount journal) (b : Booking) (checked : Checked input id currency amount journal)
      (valid : b.Valid sha256 db journal currency (transferOptions input.ownerId))
      (unclaimed : ∀ key ∈ TransferService.claimedKey input.idempotencyKey, db.keys.get? key = none) :
      Committed sha256 db (.transfer input id) (.transferred (.ok (some b.event.payload)))
        (TransferService.writes (TransferService.claimedKey input.idempotencyKey)
          (TransferService.fingerprint sha256 input) b)
  | reversed {transactionId id} (target original currency journal) (b : Booking)
      (parsed : Uuid.parse? transactionId = some target) (found : db.original target = some original)
      (compensated : Compensated original id currency journal) (unreversed : db.reversalOf target = none)
      (valid : b.Valid sha256 db journal currency (reverseOptions transactionId)) (reverses : b.reverses = some target) :
      Committed sha256 db (.reverse transactionId id) (.reversed (.ok b.event.payload)) b.writes

theorem request_commits {request : Request} (h : postgres.Commits db (request.call sha256) r ws) :
    Committed sha256 db request r ws := by
  cases request with
  | open_ input id now =>
    obtain ⟨currency, code, hc, hcode, ha, hb, rfl, rfl⟩ := open_commits h
    exact .opened currency code hc hcode ha hb
  | transfer input id =>
    obtain ⟨currency, amount, journal, hch, ⟨key, row, hk, hrow, hf, rfl, rfl⟩ | ⟨b, hb, hkeys, rfl, rfl⟩⟩ :=
      transfer_commits h
    · exact .replayed currency amount journal key row hch hk hrow hf
    · exact .transferred currency amount journal b hch hb hkeys
  | reverse transactionId id =>
    obtain ⟨target, original, currency, journal, ht, ho, hcomp, hrev, b, hb, hbr, rfl, rfl⟩ := reverse_commits h
    exact .reversed target original currency journal b ht ho hcomp hrev hb hbr

/-- A booking and the tables before and after it; the idempotency keys are left open. -/
structure Booked (db db' : Tables) (b : Booking) : Prop where
  accounts : db'.accounts = db.accounts
  balances : db'.balances = db.balances.setAll b.balances
  journals : db'.journals = db.journals.set b.id ⟨b.currency, b.reverses⟩
  postings : db'.postings = db.postings ++ b.rows
  outbox : db'.outbox = db.outbox ++ [b.event]

theorem booked_writes (db : Tables) (b : Booking) : Booked db (postgres.view db b.writes) b where
  accounts := by rw [view_accounts, b.writes_account]; rfl
  balances := by rw [view_balances, b.writes_balance]
  journals := by rw [view_journals, b.writes_journal]; rfl
  postings := by rw [view_postings, b.writes_posting]
  outbox := by rw [view_outbox, b.writes_outbox]

theorem booked_transfer (db : Tables) (key : Option String) (fingerprint : String) (b : Booking) :
    Booked db (postgres.view db (TransferService.writes key fingerprint b)) b := by
  cases key with
  | none => exact booked_writes db b
  | some key =>
    have h := booked_writes { db with keys := db.keys.set key ⟨fingerprint, none, none⟩ } b
    rw [TransferService.writes, List.cons_append, Engine.view_cons, view_append]
    exact ⟨h.accounts, h.balances, h.journals, h.postings, h.outbox⟩

/-- The rows of the idempotency keys after a transfer that books. -/
theorem transfer_keys (db : Tables) (key : Option String) (fingerprint : String) (b : Booking) (k : String) :
    (postgres.view db (TransferService.writes key fingerprint b)).keys.get? k =
      if key = some k then some ⟨fingerprint, some b.id, some b.event.payload⟩ else db.keys.get? k := by
  cases key with
  | none => rw [TransferService.writes, view_keys, b.writes_key, if_neg nofun, Keyed.setAll_nil]
  | some key =>
    rw [TransferService.writes, view_keys, List.filterMap_append, List.filterMap_cons, b.writes_key]
    simp only [Write.key?, List.filterMap_cons, List.filterMap_nil, List.cons_append, List.nil_append, Keyed.setAll_cons,
      Keyed.setAll_nil, Option.some.injEq]
    by_cases hk : key = k
    · subst hk
      rw [if_pos rfl, Keyed.get?_set_self]
    · rw [if_neg hk, Keyed.get?_set_of_ne _ _ (Ne.symm hk), Keyed.get?_set_of_ne _ _ (Ne.symm hk)]

theorem booking_keys (db : Tables) (b : Booking) : (postgres.view db b.writes).keys = db.keys := by
  rw [view_keys, b.writes_key, Keyed.setAll_nil]

theorem view_opened (db : Tables) (id : Uuid) (code ownerId : String) (now : Nat) :
    postgres.view db (AccountsService.writes id code ownerId now) =
      { db with
        accounts := db.accounts.set id ⟨.user, code, some 0, none, some ownerId, now⟩
        balances := db.balances.set id ⟨0, none⟩ } := rfl

end MiniLedger
