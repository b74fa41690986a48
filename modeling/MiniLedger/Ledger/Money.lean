import Mathlib.Algebra.GroupWithZero.Nat
import Mathlib.Algebra.Ring.Int.Defs
import Mathlib.Data.List.Basic

/-!
# Currencies and money

`Currency.of` reads a property of the object literal `SUPPORTED`, so it also finds what
every object inherits from `Object.prototype`: those members have no `code` and no
`minorUnitScale`, and the currency built from one has `undefined` in both fields (`none`
here). Amounts are `bigint`.
-/

namespace MiniLedger

inductive CurrencyError where
  | unknownCurrency
  deriving DecidableEq, Repr

/-- A value of `SUPPORTED`; `none` is `undefined`. -/
structure CurrencyDefinition where
  code : Option String
  minorUnitScale : Option Nat
  deriving DecidableEq, Repr

structure Currency where
  code : Option String
  minorUnitScale : Option Nat
  deriving DecidableEq, Repr

namespace Currency

/-- The own properties of `SUPPORTED`. -/
def supported : List (String × CurrencyDefinition) :=
  [("USD", ⟨some "USD", some 2⟩), ("EUR", ⟨some "EUR", some 2⟩), ("JPY", ⟨some "JPY", some 0⟩)]

/-- The properties `SUPPORTED` inherits; all of them are objects, none has a `code`. -/
def objectPrototype : List String :=
  ["constructor", "__defineGetter__", "__defineSetter__", "hasOwnProperty", "__lookupGetter__",
   "__lookupSetter__", "isPrototypeOf", "propertyIsEnumerable", "toString", "valueOf", "__proto__",
   "toLocaleString"]

/-- `SUPPORTED[code]`. -/
def property (code : String) : Option CurrencyDefinition :=
  match supported.lookup code with
  | some definition => some definition
  | none => if code ∈ objectPrototype then some ⟨none, none⟩ else none

def of (code : String) : Except CurrencyError Currency :=
  match property code with
  | none => .error .unknownCurrency
  | some definition => .ok ⟨definition.code, definition.minorUnitScale⟩

def codes : List String := supported.map Prod.fst

def equals (c other : Currency) : Bool := c.code == other.code

theorem lookup_supported {code : String} {d : CurrencyDefinition} (h : supported.lookup code = some d) :
    code ∈ codes ∧ d.code = some code := by
  simp only [supported, List.lookup_cons, List.lookup_nil] at h
  split at h
  · rename_i he; cases h; simp_all [codes, supported]
  · split at h
    · rename_i he; cases h; simp_all [codes, supported]
    · split at h
      · rename_i he; cases h; simp_all [codes, supported]
      · cases h

/-- The codes of the currencies `of` knows: a supported one, or `undefined`. -/
theorem of_cases {code : String} {c : Currency} (h : of code = .ok c) :
    (code ∈ codes ∧ c.code = some code) ∨ (code ∈ objectPrototype ∧ c.code = none) := by
  unfold of property at h
  cases hl : supported.lookup code with
  | some d =>
    rw [hl] at h
    cases h
    exact .inl (lookup_supported hl)
  | none =>
    rw [hl] at h
    by_cases hm : code ∈ objectPrototype
    · rw [if_pos hm] at h
      cases h
      exact .inr ⟨hm, rfl⟩
    · rw [if_neg hm] at h
      cases h

/-- A supported code is read back as itself. -/
theorem of_supported {code : String} (h : code ∈ codes) : ∃ c, of code = .ok c ∧ c.code = some code := by
  simp only [codes, supported, List.map_cons, List.map_nil, List.mem_cons, List.not_mem_nil, or_false] at h
  rcases h with rfl | rfl | rfl
  · exact ⟨⟨some "USD", some 2⟩, by decide, rfl⟩
  · exact ⟨⟨some "EUR", some 2⟩, by decide, rfl⟩
  · exact ⟨⟨some "JPY", some 0⟩, by decide, rfl⟩

end Currency

/-- The exception of arithmetic on money of two currencies. -/
structure CurrencyMismatchError where
  left : Option String
  right : Option String
  deriving DecidableEq, Repr

/-- An amount in minor units. -/
structure Money where
  amount : Int
  currency : Currency
  deriving DecidableEq, Repr

namespace Money

def zero (currency : Currency) : Money := ⟨0, currency⟩

def add (m other : Money) : Except CurrencyMismatchError Money :=
  if m.currency.equals other.currency then .ok ⟨m.amount + other.amount, m.currency⟩
  else .error ⟨m.currency.code, other.currency.code⟩

def sum (monies : List Money) (currency : Currency) : Except CurrencyMismatchError Money :=
  monies.foldlM (fun total money => total.add money) (zero currency)

def negate (m : Money) : Money := ⟨-m.amount, m.currency⟩

def isZero (m : Money) : Bool := m.amount == 0

def isNegative (m : Money) : Bool := decide (m.amount < 0)

/-- Money of one currency adds up without an exception. -/
theorem sum_from {currency : Currency} {monies : List Money} (total : Money)
    (ht : total.currency = currency) (h : ∀ m ∈ monies, m.currency.code = currency.code) :
    monies.foldlM (fun total money => total.add money) total =
      (.ok ⟨total.amount + (monies.map Money.amount).sum, currency⟩ : Except CurrencyMismatchError Money) := by
  induction monies generalizing total with
  | nil => cases total; simp_all [pure, Except.pure]
  | cons m ms ih =>
    have hm : total.currency.equals m.currency = true := by
      rw [Currency.equals, ht, h m (List.mem_cons_self ..)]; exact beq_self_eq_true _
    rw [List.foldlM_cons, add, if_pos hm]
    change ms.foldlM _ _ = _
    rw [ih ⟨total.amount + m.amount, total.currency⟩ ht fun x hx => h x (List.mem_cons_of_mem _ hx)]
    simp only [List.map_cons, List.sum_cons, Int.add_assoc]

theorem sum_eq {currency : Currency} {monies : List Money}
    (h : ∀ m ∈ monies, m.currency.code = currency.code) :
    sum monies currency = .ok ⟨(monies.map Money.amount).sum, currency⟩ := by
  rw [sum, sum_from (zero currency) rfl h, zero, Int.zero_add]

end Money

end MiniLedger
