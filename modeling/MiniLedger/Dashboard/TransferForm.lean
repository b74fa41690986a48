import MiniLedger.Dashboard.MoneyText

/-!
# The dashboard's transfer form

What the form sends is a body whose amount the ledger reads as the typed one in minor units:
the two sides keep the scales of the currencies apart, in `currencies` and in
`Currency.supported`.
-/

namespace MiniLedger.Dashboard

open Texts

/-! ## `web/src/components/dashboard/transfer-form.tsx` -/

/-- An account as the form lists it. -/
structure Account where
  id : String
  currency : String
  deriving DecidableEq, Repr

/-- The fields of the form. -/
structure TransferForm where
  accounts : List Account
  from_ : String
  to_ : String
  amount : String
  idempotencyKey : String
  saving : Bool
  deriving DecidableEq, Repr

/-- What `transfer` of the client sends: the body, and the header if there is one. -/
structure TransferRequest where
  from_ : String
  to_ : String
  amount : String
  currency : String
  idempotencyKey : Option String
  deriving DecidableEq, Repr

namespace TransferForm

variable {form : TransferForm} {request : TransferRequest}

def currency (form : TransferForm) : String :=
  ((form.accounts.find? fun account => account.id == form.from_).map Account.currency).getD ""

def toOptions (form : TransferForm) : List Account :=
  form.accounts.filter fun account => account.id ≠ form.from_ ∧ account.currency = form.currency

def effectiveTo (form : TransferForm) : String :=
  if form.toOptions.any (fun account => account.id == form.to_) then form.to_
  else ((form.toOptions.head?).map Account.id).getD ""

def minorUnits (form : TransferForm) : Option String :=
  if form.currency ≠ "" then toMinorUnits form.amount form.currency else none

def canSubmit (form : TransferForm) : Bool :=
  form.from_ ≠ "" ∧ form.effectiveTo ≠ "" ∧ form.from_ ≠ form.effectiveTo ∧ form.minorUnits ≠ none ∧
    form.minorUnits ≠ some "0" ∧ ¬ form.saving

def submit (form : TransferForm) : Option TransferRequest :=
  match form.minorUnits with
  | none => none
  | some minorUnits =>
    if form.canSubmit then
      let key := String.ofList (trim form.idempotencyKey.toList)
      some ⟨form.from_, form.effectiveTo, minorUnits, form.currency, if key ≠ "" then some key else none⟩
    else none

/-! ## The amount on both sides -/

/-- What is sent when the button is not disabled. -/
theorem submit_eq_some (h : form.submit = some request) : form.canSubmit = true ∧ request.from_ = form.from_ ∧
    request.to_ = form.effectiveTo ∧ request.currency = form.currency ∧ form.minorUnits = some request.amount := by
  unfold submit at h
  split at h
  · cases h
  · rename_i minorUnits hminor
    by_cases hcan : form.canSubmit = true
    · rw [if_pos hcan] at h
      cases h
      exact ⟨hcan, rfl, rfl, rfl, hminor⟩
    · rw [if_neg hcan] at h
      cases h

theorem minorUnits_eq_some {text : String} (h : form.minorUnits = some text) :
    toMinorUnits form.amount form.currency = some text := by
  unfold minorUnits at h
  split at h
  · exact h
  · cases h

theorem canSubmit_iff : form.canSubmit = true ↔ form.from_ ≠ "" ∧ form.effectiveTo ≠ "" ∧
    form.from_ ≠ form.effectiveTo ∧ form.minorUnits ≠ none ∧ form.minorUnits ≠ some "0" ∧ ¬ form.saving := by
  rw [canSubmit, decide_eq_true_eq]

end TransferForm

/-- `BigInt` reads a numeral as its value. -/
theorem parseAmount_numeral {text : String} (h : Numeral text.toList) :
    isDigits text = true ∧ TransferService.parseAmount text = some (value text.toList) := by
  have hdigits : isDigits text = true := by
    rw [isDigits, decide_eq_true_eq, List.all_eq_true]
    exact ⟨h.nonempty, h.digits⟩
  refine ⟨hdigits, ?_⟩
  rw [TransferService.parseAmount, if_pos hdigits, value, Nat.ofDigitChars_eq_foldl]

/-- The scales of the dashboard are those of the ledger. -/
theorem of_scaleOf {code : String} {currency : Currency} (h : Currency.of code = .ok currency)
    (hcode : currency.code = some code) : currency.minorUnitScale = some (scaleOf code) := by
  rcases Currency.of_cases h with ⟨hmem, -⟩ | ⟨-, hnone⟩
  · simp only [Currency.codes, Currency.supported, List.map_cons, List.map_nil, List.mem_cons, List.not_mem_nil,
      or_false] at hmem
    rcases hmem with rfl | rfl | rfl <;>
      · cases h
        decide
  · rw [hcode] at hnone
    cases hnone

/-- What is sent passes the checks before the transaction, and the ledger reads its amount as
the typed decimal in minor units of its own scale. -/
theorem TransferForm.submit_passes {form : TransferForm} {request : TransferRequest} {currency : Currency} {k : Nat}
    (h : form.submit = some request) (hof : Currency.of request.currency = .ok currency)
    (hcode : currency.code = some request.currency) (hk : currency.minorUnitScale = some k) :
    request.from_ ≠ request.to_ ∧ ∃ whole fraction amount, DecimalText (trim form.amount.toList) whole fraction ∧
      isDigits request.amount = true ∧ TransferService.parseAmount request.amount = some amount ∧ 0 < amount ∧
        (amount : ℚ) = decimalValue whole fraction * 10 ^ k := by
  obtain ⟨hcan, hfrom, hto, hcurrency, hminor⟩ := submit_eq_some h
  obtain ⟨-, -, hne, -, hzero, -⟩ := canSubmit_iff.1 hcan
  rw [of_scaleOf hof hcode, Option.some.injEq] at hk
  obtain ⟨whole, fraction, hdecimal, hnumeral, hvalue⟩ := toMinorUnits_value (minorUnits_eq_some hminor)
  obtain ⟨hdigits, hparse⟩ := parseAmount_numeral hnumeral
  refine ⟨by rw [hfrom, hto]; exact hne, whole, fraction, _, hdecimal, hdigits, hparse, ?_, ?_⟩
  · apply hnumeral.value_pos
    intro hnothing
    have hamount : request.amount = "0" := String.toList_inj.1 hnothing
    exact hzero (hminor.trans (congrArg some hamount))
  · rw [hvalue, ← hk, hcurrency]

end MiniLedger.Dashboard
