import Mathlib.Algebra.BigOperators.Group.List.Basic
import Mathlib.Algebra.Order.Group.Int
import Mathlib.Algebra.Ring.Int.Defs
import Mathlib.Data.List.Nodup

/-!
# Maps that remember insertion order

`Keyed κ ν` is a list of entries with distinct keys: setting a present key replaces its
value in place, setting a new one appends. It is both an insertion-ordered map of a
program and a table with a primary key.
-/

namespace Collections

/-- Entries in insertion order, one for each key. -/
structure Keyed (κ ν : Type) where
  entries : List (κ × ν)
  nodup : (entries.map Prod.fst).Nodup

namespace Keyed

variable {κ ν : Type}

instance [DecidableEq κ] [DecidableEq ν] : DecidableEq (Keyed κ ν) := fun a b =>
  decidable_of_iff (a.entries = b.entries) ⟨fun h => by cases a; cases b; simp_all, fun h => by rw [h]⟩

@[ext] theorem ext {a b : Keyed κ ν} (h : a.entries = b.entries) : a = b := by
  cases a; cases b; simp_all

def empty : Keyed κ ν := ⟨[], List.nodup_nil⟩

def keys (m : Keyed κ ν) : List κ := m.entries.map Prod.fst

variable [DecidableEq κ]

/-- Replace the first entry of key `k`, or append one. -/
def setIn (k : κ) (v : ν) : List (κ × ν) → List (κ × ν)
  | [] => [(k, v)]
  | e :: es => if e.1 = k then (k, v) :: es else e :: setIn k v es

def getIn (k : κ) : List (κ × ν) → Option ν
  | [] => none
  | e :: es => if e.1 = k then some e.2 else getIn k es

theorem mem_setIn_keys {k k' : κ} {v : ν} {es : List (κ × ν)} :
    k' ∈ (setIn k v es).map Prod.fst ↔ k' = k ∨ k' ∈ es.map Prod.fst := by
  induction es with
  | nil => simp [setIn]
  | cons e es ih =>
    unfold setIn
    split
    · rename_i he
      simp [he]
    · simp only [List.map_cons, List.mem_cons, ih]
      tauto

theorem nodup_setIn {k : κ} {v : ν} {es : List (κ × ν)} (h : (es.map Prod.fst).Nodup) :
    ((setIn k v es).map Prod.fst).Nodup := by
  induction es with
  | nil => simp [setIn]
  | cons e es ih =>
    unfold setIn
    rw [List.map_cons, List.nodup_cons] at h
    split
    · rename_i he
      rw [List.map_cons, List.nodup_cons]
      exact ⟨he ▸ h.1, h.2⟩
    · rename_i he
      rw [List.map_cons, List.nodup_cons, mem_setIn_keys]
      exact ⟨fun hm => hm.elim he h.1, ih h.2⟩

def get? (m : Keyed κ ν) (k : κ) : Option ν := getIn k m.entries

def set (m : Keyed κ ν) (k : κ) (v : ν) : Keyed κ ν := ⟨setIn k v m.entries, nodup_setIn m.nodup⟩

@[simp] theorem get?_empty (k : κ) : (empty : Keyed κ ν).get? k = none := rfl

theorem getIn_setIn (k k' : κ) (v : ν) (es : List (κ × ν)) :
    getIn k' (setIn k v es) = if k' = k then some v else getIn k' es := by
  induction es with
  | nil => simp [setIn, getIn, eq_comm]
  | cons e es ih =>
    unfold setIn
    split
    · rename_i he
      subst he
      simp only [getIn, eq_comm]
      split <;> rfl
    · rename_i he
      simp only [getIn, ih]
      split
      · rename_i he'
        rw [if_neg fun h => he (he'.trans h)]
      · rfl

theorem get?_set (m : Keyed κ ν) (k k' : κ) (v : ν) :
    (m.set k v).get? k' = if k' = k then some v else m.get? k' := getIn_setIn k k' v m.entries

@[simp] theorem get?_set_self (m : Keyed κ ν) (k : κ) (v : ν) : (m.set k v).get? k = some v := by
  rw [get?_set, if_pos rfl]

theorem get?_set_of_ne (m : Keyed κ ν) {k k' : κ} (v : ν) (h : k' ≠ k) : (m.set k v).get? k' = m.get? k' := by
  rw [get?_set, if_neg h]

theorem getIn_eq_some_iff {es : List (κ × ν)} (h : (es.map Prod.fst).Nodup) {k : κ} {v : ν} :
    getIn k es = some v ↔ (k, v) ∈ es := by
  induction es with
  | nil => simp [getIn]
  | cons e es ih =>
    obtain ⟨k', v'⟩ := e
    rw [List.map_cons, List.nodup_cons] at h
    unfold getIn
    split
    · rename_i he
      obtain rfl : k' = k := he
      simp only [Option.some.injEq, List.mem_cons, Prod.mk.injEq, true_and]
      refine ⟨fun hv => .inl hv.symm, fun hm => hm.elim Eq.symm fun hm => ?_⟩
      exact absurd (List.mem_map_of_mem (f := Prod.fst) hm) h.1
    · rename_i he
      have he : k' ≠ k := he
      simp [ih h.2, he.symm]

theorem get?_eq_some_iff {m : Keyed κ ν} {k : κ} {v : ν} : m.get? k = some v ↔ (k, v) ∈ m.entries :=
  getIn_eq_some_iff m.nodup

theorem mem_keys_iff {m : Keyed κ ν} {k : κ} : k ∈ m.keys ↔ ∃ v, m.get? k = some v := by
  simp [keys, get?_eq_some_iff]

theorem get?_eq_none_iff {m : Keyed κ ν} {k : κ} : m.get? k = none ↔ k ∉ m.keys := by
  rw [mem_keys_iff, Option.eq_none_iff_forall_not_mem]
  simp

theorem setIn_of_notMem {k : κ} {v : ν} {es : List (κ × ν)} (h : k ∉ es.map Prod.fst) : setIn k v es = es ++ [(k, v)] := by
  induction es with
  | nil => rfl
  | cons e es ih =>
    rw [List.map_cons, List.mem_cons, not_or] at h
    rw [setIn, if_neg (Ne.symm h.1), ih h.2, List.cons_append]

/-- Setting a new key appends. -/
theorem entries_set_of_none {m : Keyed κ ν} {k : κ} {v : ν} (h : m.get? k = none) :
    (m.set k v).entries = m.entries ++ [(k, v)] :=
  setIn_of_notMem (get?_eq_none_iff.1 h)

theorem keys_setIn_of_mem {k : κ} {v : ν} {es : List (κ × ν)} (h : k ∈ es.map Prod.fst) :
    (setIn k v es).map Prod.fst = es.map Prod.fst := by
  induction es with
  | nil => simp at h
  | cons e es ih =>
    unfold setIn
    split
    · rename_i he; simp [he]
    · rename_i he
      rw [List.map_cons, List.mem_cons] at h
      rw [List.map_cons, List.map_cons, ih (h.resolve_left (Ne.symm he))]

/-- Setting a present key keeps the keys and their order. -/
theorem keys_set_of_mem {m : Keyed κ ν} {k : κ} {v : ν} (h : k ∈ m.keys) : (m.set k v).keys = m.keys :=
  keys_setIn_of_mem h

/-! ## Setting many keys -/

def setAll (m : Keyed κ ν) (es : List (κ × ν)) : Keyed κ ν := es.foldl (fun m e => m.set e.1 e.2) m

/-- The last value a list of settings gives `k`. -/
def latest (k : κ) : List (κ × ν) → Option ν
  | [] => none
  | e :: es => (latest k es).or (if e.1 = k then some e.2 else none)

@[simp] theorem setAll_nil (m : Keyed κ ν) : m.setAll [] = m := rfl

@[simp] theorem setAll_cons (m : Keyed κ ν) (e : κ × ν) (es : List (κ × ν)) :
    m.setAll (e :: es) = (m.set e.1 e.2).setAll es := rfl

theorem get?_setAll (m : Keyed κ ν) (es : List (κ × ν)) (k : κ) :
    (m.setAll es).get? k = (latest k es).or (m.get? k) := by
  induction es generalizing m with
  | nil => rfl
  | cons e es ih =>
    rw [setAll_cons, ih, get?_set, latest, Option.or_assoc]
    congr 1
    by_cases h : e.1 = k
    · rw [if_pos h, if_pos h.symm, Option.some_or]
    · rw [if_neg h, if_neg (Ne.symm h), Option.none_or]

theorem latest_eq_none_iff {k : κ} {es : List (κ × ν)} : latest k es = none ↔ ∀ v, (k, v) ∉ es := by
  induction es with
  | nil => simp [latest]
  | cons e es ih =>
    obtain ⟨k', v'⟩ := e
    rw [latest, Option.or_eq_none_iff, ih]
    constructor
    · rintro ⟨h, h'⟩ v hm
      rcases List.mem_cons.1 hm with heq | hm
      · cases heq; simp at h'
      · exact h v hm
    · intro h
      refine ⟨fun v hm => h v (List.mem_cons_of_mem _ hm), ?_⟩
      rw [if_neg]
      rintro rfl
      exact h v' (List.mem_cons_self ..)

theorem mem_of_latest {k : κ} {v : ν} {es : List (κ × ν)} (h : latest k es = some v) : (k, v) ∈ es := by
  induction es with
  | nil => cases h
  | cons e es ih =>
    rw [latest] at h
    cases hl : latest k es with
    | some v' => rw [hl] at h; cases h; exact List.mem_cons_of_mem _ (ih hl)
    | none =>
      rw [hl, Option.none_or] at h
      split at h
      · rename_i he; cases h; subst he; exact List.mem_cons_self ..
      · cases h

/-- Among settings of distinct keys each is the last of its key. -/
theorem latest_of_mem {k : κ} {v : ν} {es : List (κ × ν)} (hn : (es.map Prod.fst).Nodup) (h : (k, v) ∈ es) :
    latest k es = some v := by
  cases hl : latest k es with
  | none => exact absurd h (latest_eq_none_iff.1 hl v)
  | some v' =>
    have h' : getIn k es = some v' := (getIn_eq_some_iff hn).2 (mem_of_latest hl)
    rw [(getIn_eq_some_iff hn).2 h] at h'
    exact h'.symm

theorem setIn_append {k : κ} {v : ν} {es fs : List (κ × ν)} (h : k ∉ es.map Prod.fst) :
    setIn k v (es ++ fs) = es ++ setIn k v fs := by
  induction es with
  | nil => rfl
  | cons e es ih =>
    rw [List.map_cons, List.mem_cons, not_or] at h
    rw [List.cons_append, setIn, if_neg (Ne.symm h.1), ih h.2, List.cons_append]

/-- Setting only keys that are new leaves the entries there are and adds after them. -/
theorem entries_setAll_of_new {m n : Keyed κ ν} {es old : List (κ × ν)} (hm : m.entries = old ++ n.entries)
    (h : ∀ e ∈ es, e.1 ∉ old.map Prod.fst) : (m.setAll es).entries = old ++ (n.setAll es).entries := by
  induction es generalizing m n with
  | nil => exact hm
  | cons e es ih =>
    rw [List.forall_mem_cons] at h
    refine ih (m := m.set e.1 e.2) (n := n.set e.1 e.2) ?_ h.2
    change setIn e.1 e.2 m.entries = old ++ setIn e.1 e.2 n.entries
    rw [hm, setIn_append h.1]

/-- The sum of a measure over the entries. -/
def sum (f : κ → ν → Int) (m : Keyed κ ν) : Int := (m.entries.map fun e => f e.1 e.2).sum

theorem sum_setIn {f : κ → ν → Int} {k : κ} {v old : ν} {es : List (κ × ν)} (h : getIn k es = some old) :
    ((setIn k v es).map fun e => f e.1 e.2).sum = (es.map fun e => f e.1 e.2).sum - f k old + f k v := by
  induction es with
  | nil => cases h
  | cons e es ih =>
    unfold getIn at h
    unfold setIn
    split
    · rename_i he
      rw [if_pos he] at h
      subst he
      cases h
      simp only [List.map_cons, List.sum_cons]
      omega
    · rename_i he
      rw [if_neg he] at h
      simp only [List.map_cons, List.sum_cons, ih h]
      omega

/-- Replacing the value of a present key moves the sum by the difference. -/
theorem sum_set {f : κ → ν → Int} {m : Keyed κ ν} {k : κ} {v old : ν} (h : m.get? k = some old) :
    (m.set k v).sum f = m.sum f - f k old + f k v := sum_setIn h

/-- Replacing the values of distinct present keys moves the sum by the differences. -/
theorem sum_setAll {f : κ → ν → Int} {m : Keyed κ ν} {es : List (κ × ν)} (hn : (es.map Prod.fst).Nodup)
    (hp : ∀ e ∈ es, (m.get? e.1).isSome) :
    (m.setAll es).sum f = m.sum f + (es.map fun e => f e.1 e.2 - ((m.get? e.1).map (f e.1)).getD 0).sum := by
  induction es generalizing m with
  | nil => simp
  | cons e es ih =>
    rw [List.map_cons, List.nodup_cons] at hn
    rw [List.forall_mem_cons] at hp
    obtain ⟨old, hold⟩ := Option.isSome_iff_exists.1 hp.1
    have hkeep : ∀ e' ∈ es, (m.set e.1 e.2).get? e'.1 = m.get? e'.1 := fun e' he' =>
      get?_set_of_ne _ _ fun heq => hn.1 (heq ▸ List.mem_map_of_mem he')
    have hrest : (es.map fun e' => f e'.1 e'.2 - (((m.set e.1 e.2).get? e'.1).map (f e'.1)).getD 0) =
        es.map fun e' => f e'.1 e'.2 - ((m.get? e'.1).map (f e'.1)).getD 0 :=
      List.map_congr_left fun e' he' => by rw [hkeep e' he']
    rw [setAll_cons, ih hn.2 fun e' he' => by rw [hkeep e' he']; exact hp.2 e' he', hrest, sum_set hold,
      List.map_cons, List.sum_cons, hold, Option.map_some, Option.getD_some]
    omega

end Keyed

end Collections
