import Mathlib.Logic.Function.Basic
import MiniLedger.Collections.Lists

/-!
# Double-entry books

A book is a chart of accounts and the entries posted to it. It stores no balance: the
balance of an account is the sum of its legs, and the balance after a leg adds those the
entry has made so far. An entry is judged by the book alone (`Book.verdict`), for the first
reason against it in a fixed order.

Accounts, entry ids, currencies and the parties who ask are of any types; which amounts can
be written down is a parameter.
-/

namespace Bookkeeping

open Collections

/-- The terms an account is kept on. -/
structure Terms (C P : Type) where
  currency : C
  /-- without a floor the account may fall as low as it likes -/
  floor : Option Int
  /-- who may take from the account -/
  draws : P → Bool

/-- One line of an entry. -/
structure Leg (A : Type) where
  account : A
  amount : Int
  deriving DecidableEq

/-- What is booked at once. -/
structure Entry (A T C : Type) where
  id : T
  currency : C
  legs : List (Leg A)
  /-- the entry this one undoes -/
  reverses : Option T
  deriving DecidableEq

/-- A chart of accounts and everything booked so far, oldest first. -/
@[ext] structure Book (A T C P : Type) where
  chart : A → Option (Terms C P)
  entries : List (Entry A T C)

/-- The reasons against an entry, in the order they are looked for. -/
inductive Fault where
  | unknown
  | mismatch
  | forbidden
  | short
  | duplicate
  | unfit
  deriving DecidableEq

variable {A T C P : Type} [DecidableEq A]

/-- What the legs move on `a`. -/
def moved (legs : List (Leg A)) (a : A) : Int := ((legs.filter fun l => l.account = a).map Leg.amount).sum

@[simp] theorem moved_nil (a : A) : moved [] a = 0 := rfl

theorem moved_append (legs more : List (Leg A)) (a : A) : moved (legs ++ more) a = moved legs a + moved more a := by
  simp [moved]

theorem moved_cons (l : Leg A) (legs : List (Leg A)) (a : A) :
    moved (l :: legs) a = (if l.account = a then l.amount else 0) + moved legs a := by
  by_cases h : l.account = a <;> simp [moved, h]

theorem moved_neg (legs : List (Leg A)) (a : A) : moved (legs.map fun l => ⟨l.account, -l.amount⟩) a = -moved legs a := by
  induction legs with
  | nil => rfl
  | cons l legs ih =>
    rw [List.map_cons, moved_cons, moved_cons, ih]
    show (if l.account = a then -l.amount else 0) + -moved legs a = _
    split <;> omega

theorem moved_flatMap_nonneg {entries : List (Entry A T C)} {a : A} (h : ∀ e ∈ entries, 0 ≤ moved e.legs a) :
    0 ≤ moved (entries.flatMap Entry.legs) a := by
  induction entries with
  | nil => exact Int.le_refl 0
  | cons e entries ih =>
    rw [List.forall_mem_cons] at h
    rw [List.flatMap_cons, moved_append]
    exact Int.add_nonneg h.1 (ih h.2)

/-- The entry that undoes `e`. -/
def Entry.reverse (e : Entry A T C) (id : T) : Entry A T C :=
  ⟨id, e.currency, e.legs.map fun l => ⟨l.account, -l.amount⟩, some e.id⟩

namespace Book

variable (b : Book A T C P)

/-- Add an account. -/
def open_ (a : A) (terms : Terms C P) : Book A T C P := { b with chart := Function.update b.chart a (some terms) }

/-- Add an entry. -/
def enter (e : Entry A T C) : Book A T C P := { b with entries := b.entries ++ [e] }

def balance (a : A) : Int := moved (b.entries.flatMap Entry.legs) a

/-- The balance of the account of a leg `l`, the `i`-th, once it is made. -/
def after (legs : List (Leg A)) (i : Nat) (l : Leg A) : Int := b.balance l.account + moved (legs.take (i + 1)) l.account

def trail (legs : List (Leg A)) : List Int := legs.mapIdx (b.after legs)

theorem balance_enter (e : Entry A T C) (a : A) : (b.enter e).balance a = b.balance a + moved e.legs a := by
  rw [balance, enter, List.flatMap_append, List.flatMap_singleton, moved_append]
  rfl

@[simp] theorem length_trail (legs : List (Leg A)) : (b.trail legs).length = legs.length := List.length_mapIdx

theorem getElem?_trail {legs : List (Leg A)} {i : Nat} {l : Leg A} (h : legs[i]? = some l) :
    (b.trail legs)[i]? = some (b.after legs i l) := by rw [trail, List.getElem?_mapIdx, h, Option.map_some]

/-- The first leg on an account that is not in the chart or is kept in another currency. -/
def screen [DecidableEq C] (currency : C) : List (Leg A) → Option Fault
  | [] => none
  | l :: legs =>
    match b.chart l.account with
    | none => some .unknown
    | some terms => if terms.currency ≠ currency then some .mismatch else screen currency legs

/-- A leg takes from an account the party may not draw on. -/
def barred (party : Option P) (legs : List (Leg A)) : Bool :=
  party.any fun p => legs.any fun l => l.amount < 0 ∧ ¬ (b.chart l.account).any fun terms => terms.draws p

/-- A leg leaves its account below the floor. -/
def short (legs : List (Leg A)) : Bool :=
  (legs.mapIdx fun i l => (b.chart l.account).any fun terms => terms.floor.any fun floor => b.after legs i l < floor).any id

/-- An amount or a balance cannot be written down. -/
def unfit (fits : Int → Prop) [DecidablePred fits] (legs : List (Leg A)) : Bool :=
  (legs.mapIdx fun i l => decide (¬ (fits l.amount ∧ fits (b.after legs i l)))).any id

variable {b}

omit [DecidableEq A] in
theorem screen_eq_none [DecidableEq C] {currency : C} {legs : List (Leg A)} : b.screen currency legs = none ↔
    ∀ l ∈ legs, ∃ terms, b.chart l.account = some terms ∧ terms.currency = currency := by
  induction legs with
  | nil => simp [screen]
  | cons l legs ih =>
    rw [screen, List.forall_mem_cons, ← ih]
    cases hterms : b.chart l.account with
    | none => simp
    | some terms => by_cases hc : terms.currency = currency <;> simp [hc]

omit [DecidableEq A] in
theorem barred_iff {party : Option P} {legs : List (Leg A)} : b.barred party legs = true ↔
    ∃ p, party = some p ∧ ∃ l ∈ legs, l.amount < 0 ∧ ∀ terms, b.chart l.account = some terms → terms.draws p = false := by
  cases party with
  | none => simp [barred]
  | some p => simp [barred, Option.any_eq_false]

theorem short_iff {legs : List (Leg A)} : b.short legs = true ↔ ∃ i l terms floor, legs[i]? = some l ∧
    b.chart l.account = some terms ∧ terms.floor = some floor ∧ b.after legs i l < floor := by
  rw [short, any_mapIdx]
  constructor
  · rintro ⟨i, l, hl, h⟩
    obtain ⟨terms, hterms, h⟩ := (Option.any_eq_true _ _).1 h
    obtain ⟨floor, hfloor, h⟩ := (Option.any_eq_true _ _).1 h
    exact ⟨i, l, terms, floor, hl, hterms, hfloor, of_decide_eq_true h⟩
  · rintro ⟨i, l, terms, floor, hl, hterms, hfloor, h⟩
    refine ⟨i, l, hl, ?_⟩
    rw [hterms, Option.any_some, hfloor, Option.any_some]
    exact decide_eq_true h

theorem unfit_iff {fits : Int → Prop} [DecidablePred fits] {legs : List (Leg A)} : b.unfit fits legs = true ↔
    ∃ i l, legs[i]? = some l ∧ ¬ (fits l.amount ∧ fits (b.after legs i l)) := by
  rw [unfit, any_mapIdx]
  simp only [decide_eq_true_eq]

variable (b) [DecidableEq T]

def find (id : T) : Option (Entry A T C) := b.entries.find? fun e => e.id = id

def reversed (id : T) : Bool := b.entries.any fun e => e.reverses = some id

variable [DecidableEq C]

/-- The first reason against the entry, if there is one. -/
def verdict (fits : Int → Prop) [DecidablePred fits] (party : Option P) (e : Entry A T C) : Option Fault :=
  match b.screen e.currency e.legs with
  | some fault => some fault
  | none =>
    if b.barred party e.legs then some .forbidden
    else if b.short e.legs then some .short
    else if (b.find e.id).isSome then some .duplicate
    else if b.unfit fits e.legs then some .unfit
    else none

variable {b} in
/-- An entry nothing is held against. -/
theorem verdict_eq_none {fits : Int → Prop} [DecidablePred fits] {party : Option P} {e : Entry A T C} :
    b.verdict fits party e = none ↔ b.screen e.currency e.legs = none ∧ b.barred party e.legs = false ∧
      b.short e.legs = false ∧ b.find e.id = none ∧ b.unfit fits e.legs = false := by
  rw [verdict]
  cases b.screen e.currency e.legs with
  | some fault => simp
  | none =>
    cases b.barred party e.legs <;> cases b.short e.legs <;> cases b.find e.id <;> cases b.unfit fits e.legs <;> simp

end Book

end Bookkeeping
