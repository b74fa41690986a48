import MiniLedger.Ledger.HashChain
import MiniLedger.Ledger.Money

/-!
# Accounts, postings and journal transactions

The aggregates of the domain layer, and the exceptions the use cases throw and catch. A
`JournalTransaction` has a private constructor in the source: `create` is the only way to
one, so its four checks are fields here.
-/

namespace MiniLedger

/-- An account id keeps the text it was given. -/
structure AccountId where
  value : String
  deriving DecidableEq, Repr

inductive AccountType where
  | user
  | system
  deriving DecidableEq, Repr

structure Account where
  id : AccountId
  type : AccountType
  currency : Currency
  overdraftFloor : Option Int
  handle : Option String
  ownerId : Option String
  createdAt : Nat
  deriving DecidableEq, Repr

namespace Account

/-- A fresh user account; `id` is the generated uuid. -/
def openUser (id : AccountId) (currency : Currency) (ownerId : String) (createdAt : Nat) : Account :=
  ⟨id, .user, currency, some 0, none, some ownerId, createdAt⟩

def isSystem (account : Account) : Bool := account.type == .system

def isOwnedBy (account : Account) (subject : String) : Bool := account.ownerId == some subject

end Account

/-- One leg of a journal: money moved into an account, or out of it where negative. -/
structure Posting where
  accountId : AccountId
  amount : Money
  deriving DecidableEq, Repr

/-- Would `delta` keep the balance at or above the floor? No floor exempts. -/
def isSufficient (currentBalance delta : Money) (floor : Option Int) : Except CurrencyMismatchError Bool :=
  match floor with
  | none => .ok true
  | some floor => do
    let after ← currentBalance.add delta
    return decide (floor ≤ after.amount)

/-- Why `create` refuses legs. -/
inductive JournalError where
  | empty
  | currencyMismatch
  | zeroAmountPosting
  | unbalanced
  deriving DecidableEq, Repr

def JournalError.text : JournalError → String
  | .empty => "empty"
  | .currencyMismatch => "currency_mismatch"
  | .zeroAmountPosting => "zero_amount_posting"
  | .unbalanced => "unbalanced"

/-- Legs of one currency that add up to nothing, as `create` lets them through. -/
structure JournalTransaction where
  id : String
  currency : Currency
  postings : List Posting
  nonempty : postings ≠ []
  sameCurrency : ∀ p ∈ postings, p.amount.currency.code = currency.code
  nonzero : ∀ p ∈ postings, p.amount.amount ≠ 0
  balanced : (postings.map fun p => p.amount.amount).sum = 0

namespace JournalTransaction

/-- The loop of `create` over the postings: the first one it refuses. -/
def firstDefect (currency : Currency) : List Posting → Option JournalError
  | [] => none
  | posting :: postings =>
    if ¬ posting.amount.currency.equals currency then some .currencyMismatch
    else if posting.amount.isZero then some .zeroAmountPosting
    else firstDefect currency postings

theorem firstDefect_none {currency : Currency} {postings : List Posting} (h : firstDefect currency postings = none) :
    ∀ p ∈ postings, p.amount.currency.code = currency.code ∧ p.amount.amount ≠ 0 := by
  induction postings with
  | nil => simp
  | cons p ps ih =>
    unfold firstDefect at h
    split at h
    · cases h
    · rename_i hc
      split at h
      · cases h
      · rename_i hz
        rw [List.forall_mem_cons]
        exact ⟨⟨by simpa [Currency.equals] using hc, by simpa [Money.isZero] using hz⟩, ih h⟩

theorem firstDefect_eq_none {currency : Currency} {postings : List Posting}
    (h : ∀ p ∈ postings, p.amount.currency.code = currency.code ∧ p.amount.amount ≠ 0) :
    firstDefect currency postings = none := by
  induction postings with
  | nil => rfl
  | cons p ps ih =>
    rw [List.forall_mem_cons] at h
    rw [firstDefect, if_neg (by simp [Currency.equals, h.1.1]), if_neg (by simpa [Money.isZero] using h.1.2), ih h.2]

theorem balanced_of_sum {currency : Currency} {postings : List Posting} {total : Money}
    (hd : firstDefect currency postings = none) (hs : Money.sum (postings.map Posting.amount) currency = .ok total)
    (hz : total.isZero = true) : (postings.map fun p => p.amount.amount).sum = 0 := by
  rw [Money.sum_eq (by simpa using fun p hp => (firstDefect_none hd p hp).1)] at hs
  cases hs
  simpa [Money.isZero, List.map_map, Function.comp_def] using hz

/-- `JournalTransaction.create`; `id` is the uuid it generates. -/
def create (id : String) (postings : List Posting) :
    Except CurrencyMismatchError (Except JournalError JournalTransaction) :=
  match hp : postings with
  | [] => .ok (.error .empty)
  | first :: _ =>
    let currency := first.amount.currency
    match hd : firstDefect currency postings with
    | some defect => .ok (.error defect)
    | none =>
      match hs : Money.sum (postings.map Posting.amount) currency with
      | .error e => .error e
      | .ok total =>
        if hz : total.isZero = true then
          .ok (.ok ⟨id, currency, postings, by simp [hp], fun p h => (firstDefect_none hd p h).1,
            fun p h => (firstDefect_none hd p h).2, balanced_of_sum hd hs hz⟩)
        else .ok (.error .unbalanced)

def transfer (id : String) (from_ to_ : AccountId) (amount : Money) :
    Except CurrencyMismatchError (Except JournalError JournalTransaction) :=
  create id [⟨from_, amount.negate⟩, ⟨to_, amount⟩]

/-- What `create` accepts, it keeps. -/
theorem create_ok {id : String} {postings : List Posting} {j : JournalTransaction}
    (h : create id postings = .ok (.ok j)) :
    j.id = id ∧ j.postings = postings ∧ ∀ p ∈ postings.head?, j.currency = p.amount.currency := by
  unfold create at h
  split at h
  · cases h
  · simp only at h
    split at h
    · cases h
    · split at h
      · cases h
      · split at h
        · cases h; simp
        · cases h

section

variable {id : String} {first : Posting} {rest : List Posting}

theorem create_defect {defect : JournalError} (hd : firstDefect first.amount.currency (first :: rest) = some defect) :
    create id (first :: rest) = .ok (.error defect) := by
  unfold create
  simp only
  split
  · rename_i d hd'
    rw [hd] at hd'
    cases hd'
    rfl
  · rename_i hd'
    rw [hd] at hd'
    cases hd'

/-- Past the loop the addition throws nothing, and the sum decides. -/
theorem create_sound (hd : firstDefect first.amount.currency (first :: rest) = none) :
    (((first :: rest).map fun p => p.amount.amount).sum = 0 ∧ ∃ j, create id (first :: rest) = .ok (.ok j) ∧
        j.id = id ∧ j.currency = first.amount.currency ∧ j.postings = first :: rest) ∨
      (((first :: rest).map fun p => p.amount.amount).sum ≠ 0 ∧ create id (first :: rest) = .ok (.error .unbalanced)) := by
  have hs : Money.sum ((first :: rest).map Posting.amount) first.amount.currency =
      .ok ⟨((first :: rest).map fun p => p.amount.amount).sum, first.amount.currency⟩ := by
    rw [Money.sum_eq, List.map_map]
    · rfl
    · intro m hm
      obtain ⟨p, hp, rfl⟩ := List.mem_map.1 hm
      exact (firstDefect_none hd p hp).1
  unfold create
  simp only
  split
  · rename_i d hd'
    rw [hd] at hd'
    cases hd'
  · split
    · rename_i e hs'
      rw [hs] at hs'
      cases hs'
    · rename_i total hs'
      rw [hs] at hs'
      cases hs'
      split
      · rename_i hz
        exact .inl ⟨beq_iff_eq.1 hz, _, rfl, rfl, rfl, rfl⟩
      · rename_i hz
        exact .inr ⟨fun hb => hz (beq_iff_eq.2 hb), rfl⟩

end

/-- Balanced postings of one currency, none of them zero, make a journal. -/
theorem create_eq_ok {id : String} {postings : List Posting} {currency : Currency} (hne : postings ≠ [])
    (hc : ∀ p ∈ postings, p.amount.currency = currency) (hz : ∀ p ∈ postings, p.amount.amount ≠ 0)
    (hb : (postings.map fun p => p.amount.amount).sum = 0) :
    ∃ j, create id postings = .ok (.ok j) ∧ j.id = id ∧ j.currency = currency ∧ j.postings = postings := by
  cases postings with
  | nil => exact absurd rfl hne
  | cons first rest =>
    have hfirst : first.amount.currency = currency := hc first (List.mem_cons_self ..)
    have hd : firstDefect first.amount.currency (first :: rest) = none :=
      firstDefect_eq_none fun p hp => ⟨by rw [hc p hp, hfirst], hz p hp⟩
    obtain ⟨-, j, hj, hid, hcur, hps⟩ | ⟨hne, -⟩ := @create_sound id first rest hd
    · exact ⟨j, hj, hid, hcur.trans hfirst, hps⟩
    · exact absurd hb hne

end JournalTransaction

/-! ## Receipts -/

structure PostingReceipt where
  accountId : String
  amount : String
  balanceAfter : String
  deriving DecidableEq, Repr

structure TransferReceipt where
  id : String
  currency : Option String
  postings : List PostingReceipt
  deriving DecidableEq, Repr

/-! ## Exceptions -/

/-- Why the poster refuses a journal. -/
inductive PostingError where
  | unknownAccount
  | accountCurrencyMismatch
  | notAccountOwner
  | insufficientFunds
  deriving DecidableEq, Repr

/-- Why a transfer is refused. -/
inductive TransferError where
  | unknownCurrency
  | nonPositiveAmount
  | sameAccount
  | unknownAccount
  | accountCurrencyMismatch
  | notAccountOwner
  | insufficientFunds
  | idempotencyConflict
  deriving DecidableEq, Repr

/-- An error of the database driver: its SQLSTATE and the constraint it names. -/
structure PgError where
  code : String
  constraint : Option String
  deriving DecidableEq, Repr

/-- What the code throws. -/
inductive Failure where
  /-- `LedgerPostingFailure` -/
  | posting (code : PostingError)
  /-- `TransferFailure` -/
  | transfer (code : TransferError)
  /-- `AlreadyReversedError` -/
  | alreadyReversed
  /-- `CurrencyMismatchError` -/
  | currencyMismatch (e : CurrencyMismatchError)
  /-- `DrizzleQueryError`: the driver's error is its `cause` -/
  | query (cause : PgError)
  /-- a driver error as the driver threw it -/
  | driver (e : PgError)
  /-- any other `Error` -/
  | error (message : String)
  deriving DecidableEq, Repr

end MiniLedger
