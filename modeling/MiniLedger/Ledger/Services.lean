import MiniLedger.Ledger.LedgerPoster

/-!
# The use cases

Each service as the call it makes: reads on the pool, then a reply or one transaction with
the `catch` around it. Generated uuids and the clock are arguments. `Request` and `Reply`
gather the three use cases that write.
-/

namespace MiniLedger

open Collections Sessions

inductive OpenAccountError where
  | unknownCurrency
  deriving DecidableEq, Repr

inductive ReverseError where
  | unknownTransaction
  | alreadyReversed
  | insufficientFunds
  deriving DecidableEq, Repr

inductive VerifyAccountError where
  | unknownAccount
  deriving DecidableEq, Repr

/-- What a use case returns; a replayed transfer returns the stored response, which is
`null` in a row no transaction has completed. -/
inductive Reply where
  | opened (result : Except OpenAccountError Account)
  | transferred (result : Except TransferError (Option TransferReceipt))
  | reversed (result : Except ReverseError TransferReceipt)
  deriving DecidableEq

/-! ## Opening an account -/

structure OpenAccountInput where
  currency : String
  ownerId : String
  deriving DecidableEq, Repr

namespace AccountsService

def open_ (input : OpenAccountInput) (id : Uuid) (now : Nat) : Call sql Failure Reply :=
  match Currency.of input.currency with
  | .error _ => .pure (.reply (.opened (.error .unknownCurrency)))
  | .ok currency =>
    let account := Account.openUser ⟨id.text⟩ currency input.ownerId now
    .pure (.transaction
      (do
        AccountsRepository.save account
        AccountBalancesRepository.initialize_ account.id
        return .opened (.ok account))
      .error)

end AccountsService

/-! ## Transfers -/

/-- A transfer as the service takes it: the texts of the body, the token's subject, the key. -/
structure TransferInput where
  from_ : String
  to_ : String
  amount : String
  currency : String
  ownerId : String
  idempotencyKey : Option String
  deriving DecidableEq, Repr

/-- `/^\d+$/`. -/
def isDigits (raw : String) : Bool := raw.toList ≠ [] ∧ raw.toList.all Char.isDigit

/-- The length of a string in UTF-16 units. -/
def utf16Length (text : String) : Nat := (text.toList.map fun c => if c.toNat < 0x10000 then 1 else 2).sum

/-- The body passes `transferSchema`. -/
def TransferInput.Admitted (input : TransferInput) : Prop :=
  isUuid input.from_ ∧ isUuid input.to_ ∧ isDigits input.amount ∧
    1 ≤ utf16Length input.currency ∧ utf16Length input.currency ≤ 8

instance (input : TransferInput) : Decidable input.Admitted := inferInstanceAs (Decidable (_ ∧ _))

def PostingError.toTransferError : PostingError → TransferError
  | .unknownAccount => .unknownAccount
  | .accountCurrencyMismatch => .accountCurrencyMismatch
  | .notAccountOwner => .notAccountOwner
  | .insufficientFunds => .insufficientFunds

variable (sha256 : String → String)

namespace TransferService

/-- `BigInt(raw)` of a digit string. -/
def parseAmount (raw : String) : Option Nat :=
  if isDigits raw then some (raw.toList.foldl (fun n c => 10 * n + (c.toNat - '0'.toNat)) 0) else none

def fingerprint (input : TransferInput) : String :=
  sha256 ("|".intercalate [input.ownerId, input.from_, input.to_, input.amount, input.currency])

/-- A missing key and an empty one both claim nothing. -/
def claimedKey (idempotencyKey : Option String) : Option String := idempotencyKey.filter fun key => key ≠ ""

def postTransfer (journal : JournalTransaction) (currency : Currency) (ownerId : String) : InTx TransferReceipt :=
  LedgerPoster.post sha256 journal currency ⟨some ownerId, "transfer.posted", none⟩

def run (journal : JournalTransaction) (currency : Currency) (ownerId : String) (idempotencyKey : Option String)
    (fingerprint : String) : InTx (Option TransferReceipt) :=
  match claimedKey idempotencyKey with
  | none => do
    let receipt ← postTransfer sha256 journal currency ownerId
    return some receipt
  | some key => do
    match ← IdempotencyRepository.claim key fingerprint with
    | .taken claimed response =>
      if claimed ≠ fingerprint then .throw (.transfer .idempotencyConflict) else return response
    | .owned =>
      let receipt ← postTransfer sha256 journal currency ownerId
      IdempotencyRepository.complete key journal.id receipt
      return some receipt

def recover : Failure → Except Failure Reply
  | .transfer code => .ok (.transferred (.error code))
  | .posting code => .ok (.transferred (.error code.toTransferError))
  | e => .error e

def refuse (code : TransferError) : Call sql Failure Reply := .pure (.reply (.transferred (.error code)))

/-- `id` is the uuid `JournalTransaction.transfer` generates. -/
def transfer (input : TransferInput) (id : Uuid) : Call sql Failure Reply :=
  match Currency.of input.currency with
  | .error _ => refuse .unknownCurrency
  | .ok currency =>
    match parseAmount input.amount with
    | none => refuse .nonPositiveAmount
    | some amount =>
      if amount = 0 then refuse .nonPositiveAmount
      else if input.from_ = input.to_ then refuse .sameAccount
      else
        match JournalTransaction.transfer id.text ⟨input.from_⟩ ⟨input.to_⟩ ⟨amount, currency⟩ with
        | .error e => .throw (.currencyMismatch e)
        | .ok (.error _) => refuse .nonPositiveAmount
        | .ok (.ok journal) =>
          .pure (.transaction
            (do
              let receipt ← run sha256 journal currency input.ownerId input.idempotencyKey (fingerprint sha256 input)
              return .transferred (.ok receipt))
            recover)

end TransferService

/-! ## Reversals -/

namespace ReverseService

def reversesUniqueConstraint : String := "journal_transactions_reverses_transaction_id_key"

/-- The `code` and `constraint` of the error itself. A `DrizzleQueryError` has neither: the
driver's error is its `cause`. -/
def isUniqueViolation : Failure → Bool
  | .driver e => e.code == "23505" && e.constraint == some reversesUniqueConstraint
  | _ => false

def recover (error : Failure) : Except Failure Reply :=
  if error = .alreadyReversed ∨ isUniqueViolation error then .ok (.reversed (.error .alreadyReversed))
  else if error = .posting .insufficientFunds then .ok (.reversed (.error .insufficientFunds))
  else .error error

/-- The legs of the compensating transaction. -/
def compensatingLegs (original : OriginalTransaction) (currency : Currency) : List Posting :=
  original.postings.map fun posting => ⟨⟨posting.1.text⟩, Money.negate ⟨posting.2, currency⟩⟩

def body (transactionId : String) (compensating : JournalTransaction) (currency : Currency) : InTx Reply := do
  let reversed ← (JournalTransactionsRepository.hasReversal transactionId).lift
  if reversed then .throw .alreadyReversed
  else
    let receipt ← LedgerPoster.post sha256 compensating currency ⟨none, "transfer.reversed", some transactionId⟩
    return .reversed (.ok receipt)

/-- `id` is the uuid `JournalTransaction.create` generates. -/
def plan (transactionId : String) (id : Uuid) : Option OriginalTransaction → Call sql Failure Reply
  | none => .pure (.reply (.reversed (.error .unknownTransaction)))
  | some original =>
    match Currency.of original.currency with
    | .error _ =>
      .throw (.error ("transaction " ++ transactionId ++ " has an unknown currency: " ++ original.currency))
    | .ok currency =>
      match JournalTransaction.create id.text (compensatingLegs original currency) with
      | .error e => .throw (.currencyMismatch e)
      | .ok (.error e) =>
        .throw (.error ("transaction " ++ transactionId ++ " cannot be compensated: " ++ e.text))
      | .ok (.ok compensating) => .pure (.transaction (body sha256 transactionId compensating currency) recover)

def reverse (transactionId : String) (id : Uuid) : Call sql Failure Reply :=
  Prog.bind (JournalTransactionsRepository.findById transactionId) (plan sha256 transactionId id)

end ReverseService

/-! ## The three together -/

/-- A call of a use case that writes, with what it generates. -/
inductive Request where
  | open_ (input : OpenAccountInput) (id : Uuid) (now : Nat)
  | transfer (input : TransferInput) (id : Uuid)
  | reverse (transactionId : String) (id : Uuid)

namespace Request

def call : Request → Call sql Failure Reply
  | .open_ input id now => AccountsService.open_ input id now
  | .transfer input id => TransferService.transfer sha256 input id
  | .reverse transactionId id => ReverseService.reverse sha256 transactionId id

/-- The request as the controllers let it through. -/
def Admitted : Request → Prop
  | .transfer input _ => input.Admitted
  | _ => True

instance (r : Request) : Decidable r.Admitted :=
  match r with
  | .transfer input _ => inferInstanceAs (Decidable input.Admitted)
  | .open_ _ _ _ => .isTrue trivial
  | .reverse _ _ => .isTrue trivial

end Request

/-! ## The audit of one account -/

/-- The findings on one account. -/
structure AccountAuditReport where
  accountId : String
  postingCount : Nat
  balance : Int
  chainValid : Bool
  headMatches : Bool
  reconciled : Bool
  brokenAtSeq : Option Nat
  deriving DecidableEq, Repr

namespace AuditService

def chainEntry (posting : PostingRow) : ChainEntry :=
  ⟨posting.prevHash, posting.hash,
    ⟨posting.transactionId.text, posting.accountId.text, posting.amount, posting.balanceAfter⟩⟩

/-- The report on what the three reads returned. -/
def report (account : Account) (postings : List PostingRow) (state : Option BalanceRow) : AccountAuditReport :=
  let balance := (state.map BalanceRow.balance).getD 0
  let chainHash := state.bind BalanceRow.chainHash
  let verification := verifyChain sha256 (postings.map chainEntry)
  let head := postings.getLast?.map PostingRow.hash
  let summed := postings.foldl (fun total posting => total + posting.amount) 0
  let lastBalanceAfter := (postings.getLast?.map PostingRow.balanceAfter).getD 0
  { accountId := account.id.value
    postingCount := postings.length
    balance := balance
    chainValid := verification.valid
    headMatches := head = chainHash
    reconciled := summed = balance ∧ balance = lastBalanceAfter
    brokenAtSeq := verification.brokenAtIndex.bind fun i => (postings[i]?).map PostingRow.seq }

def verifyAccount (id : String) : Reads (Except VerifyAccountError AccountAuditReport) := do
  match ← AccountsRepository.findById ⟨id⟩ with
  | none => return .error .unknownAccount
  | some account =>
    let postings ← AuditRepository.postingsForAccount ⟨id⟩
    let state ← AuditRepository.accountState ⟨id⟩
    return .ok (report sha256 account postings state)

end AuditService

/-! ## The statement of an account -/

structure Statement where
  entries : List StatementEntry
  nextCursor : Option Nat
  deriving DecidableEq

namespace StatementService

def forAccount (id subject : String) (limit : Nat) (cursor : Option Nat) : Reads (Option Statement) := do
  match ← AccountsRepository.findById ⟨id⟩ with
  | none => return none
  | some account =>
    if !account.isSystem && !account.isOwnedBy subject then return none
    else
      let rows ← StatementRepository.page ⟨id⟩ (limit + 1) cursor
      let entries := rows.take limit
      let hasMore := limit < rows.length
      return some ⟨entries, if hasMore then entries.getLast?.map StatementEntry.seq else none⟩

end StatementService

end MiniLedger
