import MiniLedger.Ledger.Repositories

/-!
# Posting a journal transaction

`LedgerPoster.post` with its loops as functions of their own: the two maps built from the
account reads (`collect`), the ownership check (`checkOwner`) and the legs over the running
balances (`postLegs`). All three maps are keyed by the text of an id: `collect` by the text
the database returned, `postLegs` by the text of the request.
-/

namespace MiniLedger

open Collections Sessions

/-- What a use case asks of the poster. -/
structure PostOptions where
  requireOwner : Option String
  eventType : String
  reversesTransactionId : Option String
  deriving DecidableEq, Repr

namespace LedgerPoster

/-- The maps `floors` and `byId` of `post`. -/
structure Involved where
  floors : Keyed String (Option Int)
  byId : Keyed String Account

/-- The array `lines` and the map `running` of `post`. -/
structure Legs where
  lines : List PostingLine
  running : Keyed String BalanceRow

/-- The loop over the accounts read. -/
def collect (currency : Currency) : List (Option Account) → Involved → Except Failure Involved
  | [], involved => .ok involved
  | none :: _, _ => .error (.posting .unknownAccount)
  | some account :: accounts, involved =>
    if ¬ account.currency.equals currency then .error (.posting .accountCurrencyMismatch)
    else collect currency accounts
      ⟨involved.floors.set account.id.value account.overdraftFloor, involved.byId.set account.id.value account⟩

/-- The loop over the legs for `requireOwner`. -/
def checkOwner (owner : String) (byId : Keyed String Account) : List Posting → Except Failure Unit
  | [] => .ok ()
  | posting :: postings =>
    if posting.amount.isNegative then
      match byId.get? posting.accountId.value with
      | some source =>
        if ¬ source.isSystem ∧ ¬ source.isOwnedBy owner then .error (.posting .notAccountOwner)
        else checkOwner owner byId postings
      | none => checkOwner owner byId postings
    else checkOwner owner byId postings

def requireOwner (options : PostOptions) (byId : Keyed String Account) (postings : List Posting) :
    Except Failure Unit :=
  match options.requireOwner with
  | some owner => checkOwner owner byId postings
  | none => .ok ()

variable (sha256 : String → String)

/-- The loop over the legs: a line for each, and the running balances after it. -/
def postLegs (currency : Currency) (floors : Keyed String (Option Int)) (transactionId : String) :
    List Posting → Keyed String BalanceRow → Except Failure Legs
  | [], running => .ok ⟨[], running⟩
  | posting :: postings, running =>
    let key := posting.accountId.value
    match running.get? key with
    | none => .error (.posting .unknownAccount)
    | some state =>
      match isSufficient ⟨state.balance, currency⟩ posting.amount (floors.get? key).join with
      | .error e => .error (.currencyMismatch e)
      | .ok false => .error (.posting .insufficientFunds)
      | .ok true =>
        let balanceAfter := state.balance + posting.amount.amount
        let hash := hashPosting sha256 state.chainHash ⟨transactionId, key, posting.amount.amount, balanceAfter⟩
        match postLegs currency floors transactionId postings (running.set key ⟨balanceAfter, some hash⟩) with
        | .error e => .error e
        | .ok legs => .ok ⟨⟨balanceAfter, state.chainHash, hash⟩ :: legs.lines, legs.running⟩

/-- The loop over the running balances. -/
def updateBalances : List (String × BalanceRow) → InTx Unit
  | [] => .pure ()
  | (key, state) :: rest =>
    (AccountBalancesRepository.updateBalance ⟨key⟩ state.balance state.chainHash).bind fun _ => updateBalances rest

def receipt (journal : JournalTransaction) (currency : Currency) (lines : List PostingLine) : TransferReceipt :=
  ⟨journal.id, currency.code,
    journal.postings.zipWith
      (fun posting line => ⟨posting.accountId.value, toString posting.amount.amount, toString line.balanceAfter⟩)
      lines⟩

def findAccounts : List AccountId → InTx (List (Option Account))
  | [] => .pure []
  | id :: ids =>
    (AccountsRepository.findById id).lift.bind fun account =>
      (findAccounts ids).bind fun accounts => .pure (account :: accounts)

def post (journal : JournalTransaction) (currency : Currency) (options : PostOptions) : InTx TransferReceipt := do
  let ids := journal.postings.map Posting.accountId
  let accounts ← findAccounts ids
  let involved ← .ofExcept (collect currency accounts ⟨Keyed.empty, Keyed.empty⟩)
  .ofExcept (requireOwner options involved.byId journal.postings)
  let locked ← AccountBalancesRepository.lockForUpdate ids
  let legs ← .ofExcept (postLegs sha256 currency involved.floors journal.id journal.postings locked)
  JournalTransactionsRepository.append journal legs.lines options.reversesTransactionId
  updateBalances legs.running.entries
  OutboxRepository.append options.eventType (receipt journal currency legs.lines)
  return receipt journal currency legs.lines

end LedgerPoster

end MiniLedger
