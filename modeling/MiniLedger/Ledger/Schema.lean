import Mathlib.Data.List.Sort
import MiniLedger.Collections.Keyed
import MiniLedger.Ledger.Domain
import MiniLedger.Ledger.Uuid
import MiniLedger.Sessions.Engine

/-!
# The tables, and what the statements do to them

Rows, queries and statements are those the repositories send; ids travel as text and are
cast to uuid where the column is one. A table with a primary key is a `Keyed` map in
insertion order, the others are lists in insertion order. Constraints are checked in the
order Postgres checks them: parameters as they are bound, NOT NULL, CHECK, indexes, foreign
keys. Columns no modelled query returns (`updated_at`, the ids and timestamps the database
fills in) are left out. The texts that come from outside (ids, owners, keys, handles) are
checked as Postgres checks a text; those the code makes itself (currency codes, digests in
hex, event types) are stored as they are.
-/

namespace MiniLedger

open Collections Sessions

/-- A row of `accounts`; its id is the key of the map. -/
structure AccountRow where
  type : AccountType
  currency : String
  overdraftFloor : Option Int
  handle : Option String
  ownerId : Option String
  createdAt : Nat
  deriving DecidableEq, Repr

/-- A row of `account_balances`: the balance and the hash of the account's last posting. -/
structure BalanceRow where
  balance : Int
  chainHash : Option String
  deriving DecidableEq, Repr

/-- A row of `journal_transactions`. -/
structure JournalRow where
  currency : String
  reversesTransactionId : Option Uuid
  deriving DecidableEq

/-- A row of `postings`, under the value of the identity column `seq` it was given. -/
structure PostingRow where
  seq : Nat
  transactionId : Uuid
  accountId : Uuid
  amount : Int
  balanceAfter : Int
  prevHash : Option String
  hash : String
  deriving DecidableEq

/-- A row of `idempotency_keys`: claimed, or completed with the transaction and the response. -/
structure KeyRow where
  fingerprint : String
  transactionId : Option Uuid
  response : Option TransferReceipt
  deriving DecidableEq

/-- A row of `outbox`. -/
structure OutboxRow where
  type : String
  payload : TransferReceipt
  deriving DecidableEq

/-- The tables, and what Postgres makes of a text too long for an index as it stands. -/
structure Tables where
  accounts : Keyed Uuid AccountRow
  balances : Keyed Uuid BalanceRow
  journals : Keyed Uuid JournalRow
  postings : List PostingRow
  keys : Keyed String KeyRow
  outbox : List OutboxRow
  /-- The bytes of an index entry of the text, compressed where Postgres compresses it. -/
  entrySize : String → Nat

/-! ## Values sent with an insert -/

/-- The parameters of an `INSERT` into `accounts`; for `undefined` the column's default, NULL,
is stored. -/
structure AccountValues where
  id : String
  type : AccountType
  currency : Option String
  overdraftFloor : Option Int
  handle : Option String
  ownerId : Option String
  createdAt : Nat
  deriving DecidableEq, Repr

/-- The parameters of an `INSERT` into `journal_transactions`. -/
structure JournalValues where
  id : String
  currency : Option String
  reversesTransactionId : Option String
  deriving DecidableEq, Repr

/-- The parameters of one row of an `INSERT` into `postings`. -/
structure PostingValues where
  transactionId : String
  accountId : String
  amount : Int
  balanceAfter : Int
  prevHash : Option String
  hash : String
  deriving DecidableEq, Repr

/-! ## Queries and statements -/

/-- The plain reads. -/
inductive Query where
  | account (id : String)
  | balance (accountId : String)
  | journal (id : String)
  | postingsOf (transactionId : String)
  | reversalOf (transactionId : String)
  | key (key : String)
  | postingsFor (accountId : String)
  /-- `… WHERE account_id = $1 AND seq > $2 ORDER BY seq ASC LIMIT $3` -/
  | statement (accountId : String) (afterSeq : Option Nat) (limit : Nat)

/-- What a read returns: the columns the repositories select. -/
@[reducible] def Query.Row : Query → Type
  | .account _ => Option (Uuid × AccountRow)
  | .balance _ => Option BalanceRow
  | .journal _ => Option String
  | .postingsOf _ => List (Uuid × Int)
  | .reversalOf _ => Option Uuid
  | .key _ => Option (String × Option TransferReceipt)
  | .postingsFor _ => List PostingRow
  | .statement _ _ _ => List (Nat × Uuid × Int × Int)

/-- The writes and the locking reads. -/
inductive Stmt where
  | insertAccount (values : AccountValues)
  | insertBalance (accountId : String)
  /-- `SELECT … FOR UPDATE` on one balance row -/
  | lockBalance (accountId : String)
  | updateBalance (accountId : String) (balance : Int) (chainHash : Option String)
  | insertJournal (values : JournalValues)
  /-- One row of an `INSERT`, its parameters bound before. -/
  | insertPosting (values : PostingValues)
  /-- `INSERT … ON CONFLICT DO NOTHING`: was a row inserted? -/
  | insertKey (key fingerprint : String)
  | completeKey (key transactionId : String) (response : TransferReceipt)
  | insertOutbox (type : String) (payload : TransferReceipt)

@[reducible] def Stmt.Ans : Stmt → Type
  | .lockBalance _ => Option BalanceRow
  | .insertKey _ _ => Bool
  | _ => Unit

@[reducible] def sql : Interface := ⟨Query, Query.Row, Stmt, Stmt.Ans⟩

/-- A row as a statement leaves it. -/
inductive Write where
  | account (id : Uuid) (row : AccountRow)
  | balance (id : Uuid) (row : BalanceRow)
  | journal (id : Uuid) (row : JournalRow)
  | posting (row : PostingRow)
  | key (key : String) (row : KeyRow)
  | outbox (row : OutboxRow)
  deriving DecidableEq

namespace Write

def account? : Write → Option (Uuid × AccountRow)
  | account id row => some (id, row)
  | _ => none

def balance? : Write → Option (Uuid × BalanceRow)
  | balance id row => some (id, row)
  | _ => none

def journal? : Write → Option (Uuid × JournalRow)
  | journal id row => some (id, row)
  | _ => none

def posting? : Write → Option PostingRow
  | posting row => some row
  | _ => none

def key? : Write → Option (String × KeyRow)
  | key k row => some (k, row)
  | _ => none

def outbox? : Write → Option OutboxRow
  | outbox row => some row
  | _ => none

end Write

/-- What one transaction may hold against the others: a row, or an entry of a unique index. -/
inductive Resource where
  | account (id : Uuid)
  | balance (id : Uuid)
  | journal (id : Uuid)
  | reverses (id : Uuid)
  | key (key : String)
  deriving DecidableEq

namespace Tables

/-- What a write leaves of the tables. -/
def apply (t : Tables) : Write → Tables
  | .account id row => { t with accounts := t.accounts.set id row }
  | .balance id row => { t with balances := t.balances.set id row }
  | .journal id row => { t with journals := t.journals.set id row }
  | .posting row => { t with postings := t.postings ++ [row] }
  | .key key row => { t with keys := t.keys.set key row }
  | .outbox row => { t with outbox := t.outbox ++ [row] }

/-- `ORDER BY seq ASC`. -/
def bySeq (rows : List PostingRow) : List PostingRow := rows.insertionSort fun p q => p.seq ≤ q.seq

/-- The legs of a journal. -/
def postingsOf (t : Tables) (id : Uuid) : List PostingRow := t.postings.filter fun p => p.transactionId = id

/-- The postings of an account. -/
def postingsFor (t : Tables) (id : Uuid) : List PostingRow := t.postings.filter fun p => p.accountId = id

/-- The journal that reverses `id`, if one does. -/
def reversalOf (t : Tables) (id : Uuid) : Option Uuid :=
  (t.journals.entries.find? fun e => e.2.reversesTransactionId = some id).map Prod.fst

def handleTaken (t : Tables) (handle : Option String) (currency : String) : Bool :=
  handle.isSome && t.accounts.entries.any fun e => e.2.handle = handle ∧ e.2.currency = currency

end Tables

/-! ## Errors of the database, as the query builder rethrows them -/

/-- A check the database makes. -/
def require (p : Prop) [Decidable p] (code : String) (constraint : Option String) : Except Failure Unit :=
  if p then .ok () else .error (.query ⟨code, constraint⟩)

/-- A text Postgres takes: one without the character U+0000. -/
def Storable (text : String) : Prop := ∀ c ∈ text.toList, c.toNat ≠ 0

instance (text : String) : Decidable (Storable text) := List.decidableBAll (fun c : Char => c.toNat ≠ 0) text.toList

/-- The parameter for a text column. -/
def bindText (text : Option String) : Except Failure Unit := require (∀ s ∈ text, Storable s) "22021" none

/-- The parameter for a uuid column. -/
def castUuid (text : String) : Except Failure Uuid := do
  bindText text
  match Uuid.parse? text with
  | some id => return id
  | none => .error (.query ⟨"22P02", none⟩)

/-- The value of a column that is `NOT NULL`. -/
def notNull {α : Type} : Option α → Except Failure α
  | some a => .ok a
  | none => .error (.query ⟨"23502", none⟩)

/-- The values of a `bigint` column. -/
def Int8 (n : Int) : Prop := -2 ^ 63 ≤ n ∧ n < 2 ^ 63

instance (n : Int) : Decidable (Int8 n) := inferInstanceAs (Decidable (_ ∧ _))

/-- The bytes of a text in UTF-8. -/
def utf8Length (text : String) : Nat := (text.toList.map Char.utf8Size).sum

/-- Is the text short enough for an entry of a btree index? It is, with the 12 bytes of an
entry that are not its own, as it stands or compressed. -/
def Indexed (entrySize : String → Nat) (text : String) : Prop := utf8Length text + 12 ≤ 2704 ∨ entrySize text ≤ 2704

instance (entrySize : String → Nat) (text : String) : Decidable (Indexed entrySize text) :=
  inferInstanceAs (Decidable (_ ∨ _))

/-- An entry of the text in the index; one of more than 8191 bytes is not even formed. -/
def indexText (entrySize : String → Nat) (index : String) (text : String) : Except Failure Unit :=
  require (Indexed entrySize text) "54000" (if entrySize text ≤ 8191 then some index else none)

/-- The parameters of one row of postings, as they are bound. -/
def PostingValues.bind (v : PostingValues) : Except Failure (Uuid × Uuid) := do
  let transactionId ← castUuid v.transactionId
  let accountId ← castUuid v.accountId
  require (Int8 v.amount ∧ Int8 v.balanceAfter) "22003" none
  return (transactionId, accountId)

def bindEach : List PostingValues → Except Failure Unit
  | [] => return ()
  | v :: rows => do
    let _ ← v.bind
    bindEach rows

/-- The parameters of one `INSERT` of many rows, six a row. One statement takes 65535. -/
def bindPostings (rows : List PostingValues) : Except Failure Unit := do
  require (6 * rows.length ≤ 65535) "08P01" none
  bindEach rows

/-- The rows a read finds. -/
def Query.answer : (q : Query) → Tables → Except Failure q.Row
  | .account id, t => do
    let id ← castUuid id
    return (t.accounts.get? id).map fun row => (id, row)
  | .balance accountId, t => do
    let id ← castUuid accountId
    return t.balances.get? id
  | .journal id, t => do
    let id ← castUuid id
    return (t.journals.get? id).map JournalRow.currency
  | .postingsOf transactionId, t => do
    let id ← castUuid transactionId
    return (Tables.bySeq (t.postingsOf id)).map fun p => (p.accountId, p.amount)
  | .reversalOf transactionId, t => do
    let id ← castUuid transactionId
    return t.reversalOf id
  | .key k, t => do
    bindText k
    return (t.keys.get? k).map fun row => (row.fingerprint, row.response)
  | .postingsFor accountId, t => do
    let id ← castUuid accountId
    return Tables.bySeq (t.postingsFor id)
  | .statement accountId afterSeq limit, t => do
    let id ← castUuid accountId
    let found := Tables.bySeq ((t.postingsFor id).filter fun p => ∀ seq ∈ afterSeq, seq < p.seq)
    return (found.take limit).map fun p => (p.seq, p.transactionId, p.amount, p.balanceAfter)

/-- The answer and the rows of a statement that goes through, with `seq` as the next value
of the sequence. -/
def Stmt.exec : (s : Stmt) → Nat → Tables → Except Failure (s.Ans × List Write)
  | .insertAccount v, _, t => do
    let id ← castUuid v.id
    require (∀ floor ∈ v.overdraftFloor, Int8 floor) "22003" none
    bindText v.handle
    bindText v.ownerId
    let currency ← notNull v.currency
    require (t.accounts.get? id = none) "23505" (some "accounts_pkey")
    require (¬ t.handleTaken v.handle currency) "23505" (some "accounts_handle_currency_key")
    v.ownerId.forM (indexText t.entrySize "accounts_owner_id_idx")
    return ((), [.account id ⟨v.type, currency, v.overdraftFloor, v.handle, v.ownerId, v.createdAt⟩])
  | .insertBalance accountId, _, t => do
    let id ← castUuid accountId
    require (t.balances.get? id = none) "23505" (some "account_balances_pkey")
    require ((t.accounts.get? id).isSome) "23503" (some "account_balances_account_id_accounts_id_fk")
    return ((), [.balance id ⟨0, none⟩])
  | .lockBalance accountId, _, t => do
    let id ← castUuid accountId
    return (t.balances.get? id, [])
  | .updateBalance accountId balance chainHash, _, t => do
    let id ← castUuid accountId
    require (Int8 balance) "22003" none
    return ((), if (t.balances.get? id).isSome then [.balance id ⟨balance, chainHash⟩] else [])
  | .insertJournal v, _, t => do
    let id ← castUuid v.id
    let reverses ← v.reversesTransactionId.mapM castUuid
    let currency ← notNull v.currency
    require (t.journals.get? id = none) "23505" (some "journal_transactions_pkey")
    require (∀ r ∈ reverses, t.reversalOf r = none) "23505"
      (some "journal_transactions_reverses_transaction_id_key")
    require (∀ r ∈ reverses, r = id ∨ (t.journals.get? r).isSome) "23503"
      (some "journal_transactions_reverses_transaction_id_journal_transactions_id_fk")
    return ((), [.journal id ⟨currency, reverses⟩])
  | .insertPosting v, seq, t => do
    let ids ← v.bind
    require (v.amount ≠ 0) "23514" (some "postings_amount_nonzero")
    require ((t.journals.get? ids.1).isSome) "23503" (some "postings_transaction_id_journal_transactions_id_fk")
    require ((t.accounts.get? ids.2).isSome) "23503" (some "postings_account_id_accounts_id_fk")
    return ((), [.posting ⟨seq, ids.1, ids.2, v.amount, v.balanceAfter, v.prevHash, v.hash⟩])
  | .insertKey key fingerprint, _, t => do
    bindText key
    match t.keys.get? key with
    | some _ => return (false, [])
    | none =>
      indexText t.entrySize "idempotency_keys_pkey" key
      return (true, [.key key ⟨fingerprint, none, none⟩])
  | .completeKey key transactionId response, _, t => do
    let transactionId ← castUuid transactionId
    bindText key
    match t.keys.get? key with
    | none => return ((), [])
    | some row =>
      require ((t.journals.get? transactionId).isSome) "23503"
        (some "idempotency_keys_transaction_id_journal_transactions_id_fk")
      return ((), [.key key ⟨row.fingerprint, some transactionId, some response⟩])
  | .insertOutbox type payload, _, _ => return ((), [.outbox ⟨type, payload⟩])

/-- The values a statement takes from the sequence of `postings.seq`: one for each row whose
parameters could be bound, whether the row is stored or not. -/
def Stmt.draws : Stmt → Nat
  | .insertPosting v => if v.bind.isOk then 1 else 0
  | _ => 0

/-- The uuid a text stands for, if any. -/
def uuidOf (text : String) : List Uuid := (Uuid.parse? text).toList

/-- What no other transaction may hold while the statement runs. -/
def Stmt.needs : Stmt → List Resource
  | .insertAccount v => (uuidOf v.id).map .account
  | .insertBalance accountId => (uuidOf accountId).map .balance
  | .lockBalance accountId => (uuidOf accountId).map .balance
  | .updateBalance accountId _ _ => (uuidOf accountId).map .balance
  | .insertJournal v =>
    (uuidOf v.id).map .journal ++ (v.reversesTransactionId.toList.flatMap uuidOf).map .reverses
  | .insertPosting _ => []
  | .insertKey key _ => [.key key]
  | .completeKey key _ _ => [.key key]
  | .insertOutbox _ _ => []

/-- A lock request that finds no row, and an insert that meets a row, leave nothing held. -/
def Stmt.locks : (s : Stmt) → s.Ans → List Resource
  | .lockBalance accountId, some _ => (uuidOf accountId).map .balance
  | .lockBalance _, none => []
  | .insertKey key _, inserted => if inserted then [.key key] else []
  | .insertAccount v, _ => (uuidOf v.id).map .account
  | .insertBalance accountId, _ => (uuidOf accountId).map .balance
  | .updateBalance accountId _ _, _ => (uuidOf accountId).map .balance
  | .insertJournal v, _ =>
    (uuidOf v.id).map .journal ++ (v.reversesTransactionId.toList.flatMap uuidOf).map .reverses
  | .insertPosting _, _ => []
  | .completeKey key _ _, _ => [.key key]
  | .insertOutbox _ _, _ => []

theorem Stmt.locks_needed (s : Stmt) (ans : s.Ans) : s.locks ans ⊆ s.needs := by
  cases s with
  | lockBalance accountId => cases ans <;> simp [locks, needs]
  | insertKey key fingerprint => cases ans <;> simp [locks, needs]
  | _ => exact List.Subset.refl _

/-- The deferred trigger `postings_balanced`, for each posting the transaction inserted. -/
def Tables.balanced (t : Tables) (ws : List Write) : Except Failure Unit :=
  require (∀ p ∈ ws.filterMap Write.posting?, ((t.postingsOf p.transactionId).map PostingRow.amount).sum = 0)
    "23514" none

/-- The database behind the repositories. -/
@[reducible] def postgres : Engine sql Failure where
  Tables := Tables
  Write := Write
  Resource := Resource
  Kill := PgError
  apply := Tables.apply
  answer := Query.answer
  exec := Stmt.exec
  draws := Stmt.draws
  needs := Stmt.needs
  locks := Stmt.locks
  locks_needed := Stmt.locks_needed
  settle := Tables.balanced
  killed := .query

end MiniLedger
