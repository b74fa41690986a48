import MiniLedger.Ledger.Schema

/-!
# The repositories

Each method as the statements it sends. Methods that only read are programs of queries, so
that they can be sent on the pool as well as in a transaction.
-/

namespace MiniLedger

open Collections Sessions

/-- A program inside a transaction. -/
abbrev InTx (α : Type) : Type := Prog sql Failure α

/-- A program of reads. -/
abbrev Reads (α : Type) : Type := Prog sql.readOnly Failure α

abbrev send (s : Stmt) : InTx s.Ans := @Prog.send sql Failure s

abbrev ask (q : Query) : Reads q.Row := @Prog.ask sql.readOnly Failure q

/-! ## Accounts -/

namespace AccountsRepository

/-- The account of a stored row. A row whose currency is no longer supported is a thrown error. -/
def toDomain (id : Uuid) (row : AccountRow) : Except Failure Account :=
  match Currency.of row.currency with
  | .error _ => .error (.error ("stored account " ++ id.text ++ " has an unknown currency: " ++ row.currency))
  | .ok currency =>
    .ok ⟨⟨id.text⟩, row.type, currency, row.overdraftFloor, row.handle, row.ownerId, row.createdAt⟩

def toRow (account : Account) : AccountValues :=
  ⟨account.id.value, account.type, account.currency.code, account.overdraftFloor, account.handle,
    account.ownerId, account.createdAt⟩

def save (account : Account) : InTx Unit := send (.insertAccount (toRow account))

/-- `… WHERE id = $1 LIMIT 1` -/
def findById (id : AccountId) : Reads (Option Account) := do
  match ← ask (.account id.value) with
  | none => return none
  | some (uuid, row) =>
    let account ← .ofExcept (toDomain uuid row)
    return some account

end AccountsRepository

/-! ## Balances -/

namespace AccountBalancesRepository

/-- The balance row of a new account, with the defaults 0 and NULL. -/
def initialize_ (accountId : AccountId) : InTx Unit := send (.insertBalance accountId.value)

/-- `UPDATE … WHERE account_id = $1` -/
def updateBalance (accountId : AccountId) (balance : Int) (chainHash : Option String) : InTx Unit :=
  send (.updateBalance accountId.value balance chainHash)

/-- The loop of `lockForUpdate`. -/
def lockEach : List String → Keyed String BalanceRow → InTx (Keyed String BalanceRow)
  | [], balances => .pure balances
  | id :: ids, balances =>
    (send (.lockBalance id)).bind fun
      | none => .throw (.error ("account " ++ id ++ " has no balance row to lock"))
      | some row => lockEach ids (balances.set id row)

/-- `[...new Set(ids)].sort()`. The default sort compares UTF-16 units; on the ids a request
or the database can give, which are ASCII, that is the order of `String`. -/
def lockOrder (accountIds : List AccountId) : List String :=
  (accountIds.map AccountId.value).dedup.insertionSort (· ≤ ·)

/-- The balance rows of the accounts, locked in that order. -/
def lockForUpdate (accountIds : List AccountId) : InTx (Keyed String BalanceRow) :=
  lockEach (lockOrder accountIds) Keyed.empty

end AccountBalancesRepository

/-! ## Journal transactions -/

/-- What the poster computes for a leg: the balance behind it and its link in the chain. -/
structure PostingLine where
  balanceAfter : Int
  prevHash : Option String
  hash : String
  deriving DecidableEq, Repr

/-- A stored journal as `reverse` reads it: its legs in `seq` order. -/
structure OriginalTransaction where
  currency : String
  postings : List (Uuid × Int)

namespace JournalTransactionsRepository

def toTransactionRow (journal : JournalTransaction) (reversesTransactionId : Option String) : JournalValues :=
  ⟨journal.id, journal.currency.code, reversesTransactionId⟩

def toPostingRow (transactionId : String) (posting : Posting) (line : PostingLine) : PostingValues :=
  ⟨transactionId, posting.accountId.value, posting.amount.amount, line.balanceAfter, line.prevHash, line.hash⟩

def toPostingRows (journal : JournalTransaction) (lines : List PostingLine) : List PostingValues :=
  journal.postings.zipWith (toPostingRow journal.id) lines

/-- The rows of one `INSERT`, one after another; each takes its own value of `seq`. -/
def insertEach : List PostingValues → InTx Unit
  | [] => .pure ()
  | values :: rest => (send (.insertPosting values)).bind fun _ => insertEach rest

/-- One `INSERT` of all rows: the parameters of every row are bound before the first is stored. -/
def insertPostings (rows : List PostingValues) : InTx Unit := do
  .ofExcept (bindPostings rows)
  insertEach rows

/-- The journal's row, then its legs. -/
def append (journal : JournalTransaction) (lines : List PostingLine) (reversesTransactionId : Option String) :
    InTx Unit := do
  if lines.length ≠ journal.postings.length then
    .throw (.error ("lines has " ++ toString lines.length ++ " entries but the transaction has " ++
      toString journal.postings.length ++ " postings"))
  else
    let _ ← send (.insertJournal (toTransactionRow journal reversesTransactionId))
    insertPostings (toPostingRows journal lines)

/-- The journal's row, then its postings; without a row the postings are not read. -/
def findById (id : String) : Reads (Option OriginalTransaction) := do
  match ← ask (.journal id) with
  | none => return none
  | some currency =>
    let postings ← ask (.postingsOf id)
    return some ⟨currency, postings⟩

/-- `… WHERE reverses_transaction_id = $1 LIMIT 1` -/
def hasReversal (transactionId : String) : Reads Bool := do
  let row ← ask (.reversalOf transactionId)
  return row.isSome

end JournalTransactionsRepository

/-! ## Idempotency keys and the outbox -/

/-- Whose the key is: this transaction's, or that of a committed one. -/
inductive IdempotencyClaim where
  | owned
  | taken (fingerprint : String) (response : Option TransferReceipt)
  deriving DecidableEq, Repr

namespace IdempotencyRepository

/-- `INSERT … ON CONFLICT DO NOTHING`, and the row that was in the way if none was inserted. -/
def claim (key fingerprint : String) : InTx IdempotencyClaim := do
  let inserted ← send (.insertKey key fingerprint)
  if inserted then return .owned
  else
    match ← (ask (.key key)).lift with
    | none => .throw (.error ("idempotency key " ++ key ++ " disappeared after a conflict"))
    | some (fingerprint, response) => return .taken fingerprint response

def complete (key transactionId : String) (response : TransferReceipt) : InTx Unit :=
  send (.completeKey key transactionId response)

end IdempotencyRepository

namespace OutboxRepository

def append (type : String) (payload : TransferReceipt) : InTx Unit := send (.insertOutbox type payload)

end OutboxRepository

/-! ## The audit's reads -/

namespace AuditRepository

def postingsForAccount (accountId : AccountId) : Reads (List PostingRow) := ask (.postingsFor accountId.value)

def accountState (accountId : AccountId) : Reads (Option BalanceRow) := ask (.balance accountId.value)

end AuditRepository

/-! ## Statements -/

/-- A line of an account's statement. -/
structure StatementEntry where
  seq : Nat
  transactionId : Uuid
  amount : Int
  balanceAfter : Int
  deriving DecidableEq

namespace StatementRepository

def page (accountId : AccountId) (limit : Nat) (afterSeq : Option Nat) : Reads (List StatementEntry) := do
  let rows ← ask (.statement accountId.value afterSeq limit)
  return rows.map fun row => ⟨row.1, row.2.1, row.2.2.1, row.2.2.2⟩

end StatementRepository

end MiniLedger
