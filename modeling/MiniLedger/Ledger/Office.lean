import MiniLedger.Bookkeeping.Book
import MiniLedger.Ledger.ReverseEnds

/-!
# The ledger as a book

What the ledger is for, said without its tables: a book of accounts and entries, the
responses settled under idempotency keys with the fingerprint of the request they answered,
and the events told to the outbox. Here no balance is stored, no row is locked, no entry is
chained to the one before or numbered, and a request is answered in one piece. What remains
of the database is which texts it takes. `Tables.office` reads such an office off the tables.
-/

namespace MiniLedger

open Bookkeeping

/-- A currency that is only a name in the prototype chain has no code. -/
abbrev LedgerBook : Type := Book Uuid Uuid (Option String) String

abbrev LedgerEntry : Type := Entry Uuid Uuid (Option String)

/-- The book, what is settled under each key, and the events sent so far. -/
@[ext] structure Office where
  book : LedgerBook
  /-- the fingerprint and the response under each key -/
  settled : String → Option (String × Option TransferReceipt)
  outbox : List OutboxRow
  /-- which long texts can be looked up, as in `Tables` -/
  entrySize : String → Nat

/-! ## Read off the tables -/

def AccountRow.terms (row : AccountRow) : Terms (Option String) String where
  currency := some row.currency
  floor := row.overdraftFloor
  draws subject := row.type == .system || row.ownerId == some subject

def PostingRow.leg (p : PostingRow) : Leg Uuid := ⟨p.accountId, p.amount⟩

def Tables.entry (t : Tables) (e : Uuid × JournalRow) : LedgerEntry where
  id := e.1
  currency := some e.2.currency
  legs := (t.postingsOf e.1).map PostingRow.leg
  reverses := e.2.reversesTransactionId

def Tables.book (t : Tables) : LedgerBook where
  chart u := (t.accounts.get? u).map AccountRow.terms
  entries := t.journals.entries.map t.entry

def Tables.office (t : Tables) : Office where
  book := t.book
  settled key := (t.keys.get? key).map fun row => (row.fingerprint, row.response)
  outbox := t.outbox
  entrySize := t.entrySize

/-! ## Posting -/

/-- What a fault is reported as. -/
def failure : Fault → Failure
  | .unknown => .posting .unknownAccount
  | .mismatch => .posting .accountCurrencyMismatch
  | .forbidden => .posting .notAccountOwner
  | .short => .posting .insufficientFunds
  | .duplicate => duplicateId
  | .unfit => outOfRange

/-- The receipt of an entry: each leg with the balance after it. -/
def receiptOf (b : LedgerBook) (e : LedgerEntry) : TransferReceipt :=
  ⟨e.id.text, e.currency,
    e.legs.zipWith (fun l after => ⟨l.account.text, toString l.amount, toString after⟩) (b.trail e.legs)⟩

namespace Office

/-- Post an entry for a party, if there is one to ask for, and tell the outbox. -/
def post (o : Office) (party : Option String) (eventType : String) (e : LedgerEntry) :
    Except Failure (TransferReceipt × Office) :=
  match o.book.verdict Int8 party e with
  | some fault => .error (failure fault)
  | none =>
    .ok (receiptOf o.book e,
      { o with book := o.book.enter e, outbox := o.outbox ++ [⟨eventType, receiptOf o.book e⟩] })

/-- Settle a response under a key, if one was claimed. -/
def settle (o : Office) (key : Option String) (fingerprint : String) (response : TransferReceipt) : Office :=
  { o with settled := fun k => if key = some k then some (fingerprint, some response) else o.settled k }

/-! ## The three requests -/

/-- What is held against a new account; the code it is kept under if nothing is. -/
def checkAccount (o : Office) (code : Option String) (ownerId : String) (id : Uuid) : Except Failure String := do
  bindText ownerId
  let code ← notNull code
  require (o.book.chart id).isNone "23505" (some "accounts_pkey")
  indexText o.entrySize "accounts_owner_id_idx" ownerId
  return code

def open_ (o : Office) (input : OpenAccountInput) (id : Uuid) (now : Nat) : Except Failure Reply × Office :=
  match Currency.of input.currency with
  | .error _ => (.ok (.opened (.error .unknownCurrency)), o)
  | .ok currency =>
    match o.checkAccount currency.code input.ownerId id with
    | .error e => (.error e, o)
    | .ok code =>
      (.ok (.opened (.ok (Account.openUser ⟨id.text⟩ currency input.ownerId now))),
        { o with book := o.book.open_ id (AccountRow.terms ⟨.user, code, some 0, none, some input.ownerId, now⟩) })

variable (sha256 : String → String)

/-- A transfer whose key is new. -/
def charge (o : Office) (input : TransferInput) (currency : Currency) (amount : Nat) (id : Uuid) :
    Except Failure Reply × Office :=
  match castUuid input.from_, castUuid input.to_ with
  | .ok source, .ok target =>
    match o.post (some input.ownerId) "transfer.posted"
        ⟨id, currency.code, [⟨source, -amount⟩, ⟨target, amount⟩], none⟩ with
    | .error e => (TransferService.recover e, o)
    | .ok (receipt, o') =>
      (.ok (.transferred (.ok (some receipt))),
        o'.settle (TransferService.claimedKey input.idempotencyKey) (TransferService.fingerprint sha256 input) receipt)
  | .error e, _ => (.error e, o)
  | _, .error e => (.error e, o)

/-- A transfer whose key is settled. -/
def replay (o : Office) (input : TransferInput) (settled : String × Option TransferReceipt) :
    Except Failure Reply × Office :=
  if settled.1 ≠ TransferService.fingerprint sha256 input then (.ok (.transferred (.error .idempotencyConflict)), o)
  else (.ok (.transferred (.ok settled.2)), o)

/-- What is settled under the key, if one is claimed. -/
def claim (o : Office) : Option String → Except Failure (Option (String × Option TransferReceipt))
  | none => return none
  | some key => do
    bindText key
    match o.settled key with
    | some settled => return some settled
    | none =>
      indexText o.entrySize "idempotency_keys_pkey" key
      return none

def transfer (o : Office) (input : TransferInput) (id : Uuid) : Except Failure Reply × Office :=
  match Currency.of input.currency with
  | .error _ => (.ok (.transferred (.error .unknownCurrency)), o)
  | .ok currency =>
    match TransferService.parseAmount input.amount with
    | none => (.ok (.transferred (.error .nonPositiveAmount)), o)
    | some amount =>
      if amount = 0 then (.ok (.transferred (.error .nonPositiveAmount)), o)
      else if input.from_ = input.to_ then (.ok (.transferred (.error .sameAccount)), o)
      else
        match o.claim (TransferService.claimedKey input.idempotencyKey) with
        | .error e => (.error e, o)
        | .ok (some settled) => o.replay sha256 input settled
        | .ok none => o.charge sha256 input currency amount id

def reverse (o : Office) (transactionId : String) (id : Uuid) : Except Failure Reply × Office :=
  match castUuid transactionId with
  | .error e => (.error e, o)
  | .ok target =>
    match o.book.find target with
    | none => (.ok (.reversed (.error .unknownTransaction)), o)
    | some e =>
      if o.book.reversed target then (.ok (.reversed (.error .alreadyReversed)), o)
      else
        match o.post none "transfer.reversed" (e.reverse id) with
        | .error x => (ReverseService.recover x, o)
        | .ok (receipt, o') => (.ok (.reversed (.ok receipt)), o')

def serve (o : Office) : Request → Except Failure Reply × Office
  | .open_ input id now => o.open_ input id now
  | .transfer input id => o.transfer sha256 input id
  | .reverse transactionId id => o.reverse transactionId id

end Office

end MiniLedger
