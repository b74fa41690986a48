import Mathlib.Algebra.BigOperators.Ring.Finset
import MiniLedger.Bookkeeping.Book

/-!
# The laws of a book

A book is lawful if its entries balance in one currency on accounts of the chart, no id is
used and no entry is undone twice, an entry said to undo another has its legs turned round,
and no account is below its floor. Opening an account that may not start above zero and
entering a balanced entry nothing is held against both keep that; and the accounts of one
currency of a lawful book hold nothing in all.
-/

namespace Bookkeeping

variable {A T C P : Type}

/-- What a book that only ever took lawful entries satisfies. -/
structure Book.Lawful [DecidableEq A] (b : Book A T C P) : Prop where
  charted : ∀ e ∈ b.entries, ∀ l ∈ e.legs, ∃ terms, b.chart l.account = some terms ∧ terms.currency = e.currency
  balanced : ∀ e ∈ b.entries, (e.legs.map Leg.amount).sum = 0
  nodup : (b.entries.map Entry.id).Nodup
  floors : ∀ a terms floor, b.chart a = some terms → terms.floor = some floor → floor ≤ b.balance a
  undoes : ∀ e ∈ b.entries, ∀ r, e.reverses = some r → ∃ o ∈ b.entries, o.id = r ∧ e = o.reverse e.id
  once : (b.entries.filterMap Entry.reverses).Nodup

namespace Book

variable [DecidableEq A] {b : Book A T C P} {e : Entry A T C}

omit [DecidableEq A] in
theorem sum_reverse (e : Entry A T C) (id : T) :
    ((e.reverse id).legs.map Leg.amount).sum = -(e.legs.map Leg.amount).sum := by
  rw [Entry.reverse, List.map_map]
  induction e.legs with
  | nil => rfl
  | cons l legs ih =>
    rw [List.map_cons, List.map_cons, List.sum_cons, List.sum_cons, ih]
    show -l.amount + _ = _
    omega

/-- Legs none of which is short leave the accounts they touch at or above the floor. -/
theorem floor_of_not_short {legs : List (Leg A)} {a : A} {floor : Int}
    (h : ∀ i l, legs[i]? = some l → l.account = a → floor ≤ b.after legs i l) (ha : ∃ l ∈ legs, l.account = a) :
    floor ≤ b.balance a + moved legs a := by
  -- the last leg on `a` decides
  induction legs using List.reverseRecOn with
  | nil =>
    obtain ⟨l, hl, -⟩ := ha
    exact absurd hl List.not_mem_nil
  | append_singleton legs l ih =>
    by_cases hl : l.account = a
    · subst hl
      have hlast := h legs.length l (by rw [List.getElem?_append_right (Nat.le_refl _), Nat.sub_self]; rfl) rfl
      have hall : (legs ++ [l]).take (legs.length + 1) = legs ++ [l] := List.take_of_length_le (by simp)
      rwa [after, hall] at hlast
    · have hmoved : moved (legs ++ [l]) a = moved legs a := by
        rw [moved_append, moved_cons, if_neg hl, moved_nil, Int.add_zero, Int.add_zero]
      rw [hmoved]
      refine ih (fun i x hx hxa => ?_) ?_
      · have hi : i < legs.length := (List.getElem?_eq_some_iff.1 hx).1
        have hkept := h i x ((List.getElem?_append_left hi).trans hx) hxa
        rwa [after, List.take_append_of_le_length hi] at hkept
      · obtain ⟨x, hx, hxa⟩ := ha
        obtain hx | hx := List.mem_append.1 hx
        · exact ⟨x, hx, hxa⟩
        · rw [List.mem_singleton.1 hx] at hxa
          exact absurd hxa hl

theorem moved_eq_zero {legs : List (Leg A)} {a : A} (h : ∀ l ∈ legs, l.account ≠ a) : moved legs a = 0 := by
  rw [moved, List.filter_eq_nil_iff.2 fun l hl hla => h l hl (of_decide_eq_true hla)]
  rfl

/-- What the legs move on the accounts of `S` that satisfy `p`, they move in all. -/
theorem sum_moved {S : Finset A} {p : A → Prop} [DecidablePred p] {legs : List (Leg A)} (hS : ∀ l ∈ legs, l.account ∈ S) :
    (∑ a ∈ S, if p a then moved legs a else 0) = ((legs.filter fun l => p l.account).map Leg.amount).sum := by
  induction legs with
  | nil => simp
  | cons l legs ih =>
    rw [List.forall_mem_cons] at hS
    have hsplit : ∀ a, (if p a then moved (l :: legs) a else 0) =
        (if l.account = a then (if p a then l.amount else 0) else 0) + if p a then moved legs a else 0 := by
      intro a
      rw [moved_cons]
      by_cases hp : p a <;> by_cases ha : l.account = a <;> simp [hp, ha]
    rw [Finset.sum_congr rfl fun a _ => hsplit a, Finset.sum_add_distrib, Finset.sum_ite_eq, if_pos hS.1, ih hS.2]
    by_cases hp : p l.account <;> simp [hp]

namespace Lawful

/-- **The accounts of one currency hold nothing in all.** -/
theorem total [DecidableEq C] (h : b.Lawful) {S : Finset A} (hS : ∀ e ∈ b.entries, ∀ l ∈ e.legs, l.account ∈ S) (c : C) :
    (∑ a ∈ S, if (b.chart a).map Terms.currency = some c then b.balance a else 0) = 0 := by
  have hlegs : ∀ l ∈ b.entries.flatMap Entry.legs, l.account ∈ S := by
    intro l hl
    obtain ⟨e, he, hl⟩ := List.mem_flatMap.1 hl
    exact hS e he l hl
  unfold balance
  rw [sum_moved (p := fun a => (b.chart a).map Terms.currency = some c) hlegs]
  -- an entry has all of its legs in the currency, or none
  have hentry : ∀ e ∈ b.entries,
      ((e.legs.filter fun l => (b.chart l.account).map Terms.currency = some c).map Leg.amount).sum = 0 := by
    intro e he
    have hcurrency : ∀ l ∈ e.legs, (b.chart l.account).map Terms.currency = some e.currency := by
      intro l hl
      obtain ⟨terms, hterms, hc⟩ := h.charted e he l hl
      rw [hterms, Option.map_some, hc]
    by_cases hc : e.currency = c
    · rw [List.filter_eq_self.2 fun l hl => decide_eq_true (hc ▸ hcurrency l hl), h.balanced e he]
    · rw [List.filter_eq_nil_iff.2 fun l hl hlc => ?_]
      · rfl
      · have hsame := (hcurrency l hl).symm.trans (of_decide_eq_true hlc)
        exact hc (Option.some.inj hsame)
  generalize b.entries = entries at hentry ⊢
  induction entries with
  | nil => rfl
  | cons e entries ih =>
    rw [List.forall_mem_cons] at hentry
    rw [List.flatMap_cons, List.filter_append, List.map_append, List.sum_append, hentry.1, ih hentry.2, Int.add_zero]

theorem open_ (h : b.Lawful) {a : A} {terms : Terms C P} (hnew : b.chart a = none)
    (hfloor : ∀ floor, terms.floor = some floor → floor ≤ 0) : (b.open_ a terms).Lawful := by
  have hkeep : ∀ {a' terms'}, b.chart a' = some terms' → (b.open_ a terms).chart a' = some terms' := by
    intro a' terms' ha
    have hne : a' ≠ a := by
      intro he
      rw [he, hnew] at ha
      cases ha
    exact (Function.update_of_ne hne ..).trans ha
  refine ⟨fun e he l hl => ?_, h.balanced, h.nodup, fun a' terms' floor ha hf => ?_, h.undoes, h.once⟩
  · obtain ⟨terms', hterms, hc⟩ := h.charted e he l hl
    exact ⟨terms', hkeep hterms, hc⟩
  · by_cases ha' : a' = a
    · subst ha'
      have hself : (b.open_ a' terms).chart a' = some terms := Function.update_self a' _ b.chart
      have hterms : terms = terms' := Option.some.inj (hself.symm.trans ha)
      have hzero : (b.open_ a' terms).balance a' = 0 := by
        refine moved_eq_zero fun l hl hla => ?_
        obtain ⟨e, he, hl⟩ := List.mem_flatMap.1 hl
        obtain ⟨_, hsome, -⟩ := h.charted e he l hl
        rw [hla, hnew] at hsome
        cases hsome
      rw [hzero]
      exact hfloor floor (hterms ▸ hf)
    · exact h.floors a' terms' floor ((Function.update_of_ne ha' ..).symm.trans ha) hf

variable [DecidableEq T] [DecidableEq C]

theorem enter (h : b.Lawful) {fits : Int → Prop} [DecidablePred fits] {party : Option P}
    (hv : b.verdict fits party e = none) (hbalanced : (e.legs.map Leg.amount).sum = 0)
    (hundoes : ∀ r, e.reverses = some r → b.reversed r = false ∧ ∃ o ∈ b.entries, o.id = r ∧ e = o.reverse e.id) :
    (b.enter e).Lawful := by
  obtain ⟨hscreen, -, hshort, hfind, -⟩ := verdict_eq_none.1 hv
  have hmem : ∀ {e'}, e' ∈ (b.enter e).entries ↔ e' ∈ b.entries ∨ e' = e := by
    intro e'
    rw [Book.enter, List.mem_append, List.mem_singleton]
  refine ⟨fun e' he => ?_, fun e' he => ?_, ?_, fun a terms floor ha hf => ?_, fun e' he r hr => ?_, ?_⟩
  · obtain he | rfl := hmem.1 he
    · exact h.charted e' he
    · exact (screen_eq_none (b := b)).1 hscreen
  · obtain he | rfl := hmem.1 he
    · exact h.balanced e' he
    · exact hbalanced
  · rw [Book.enter, List.map_append, List.map_singleton]
    refine List.nodup_append.2 ⟨h.nodup, List.nodup_singleton _, fun id hid id' hid' heq => ?_⟩
    obtain ⟨e', he', rfl⟩ := List.mem_map.1 hid
    rw [List.mem_singleton.1 hid'] at heq
    exact List.find?_eq_none.1 hfind e' he' (decide_eq_true heq)
  · rw [b.balance_enter]
    by_cases htouched : ∃ l ∈ e.legs, l.account = a
    · refine floor_of_not_short (fun i l hl hla => ?_) htouched
      by_contra hlt
      have hshort' : b.short e.legs = true :=
        short_iff.2 ⟨i, l, terms, floor, hl, hla ▸ ha, hf, Int.not_le.1 hlt⟩
      rw [hshort] at hshort'
      cases hshort'
    · rw [moved_eq_zero fun l hl hla => htouched ⟨l, hl, hla⟩, Int.add_zero]
      exact h.floors a terms floor ha hf
  · obtain he | rfl := hmem.1 he
    · obtain ⟨o, ho, hid, heq⟩ := h.undoes e' he r hr
      exact ⟨o, hmem.2 (.inl ho), hid, heq⟩
    · obtain ⟨-, o, ho, hid, heq⟩ := hundoes r hr
      exact ⟨o, hmem.2 (.inl ho), hid, heq⟩
  · rw [Book.enter, List.filterMap_append]
    cases hr : e.reverses with
    | none =>
      rw [List.filterMap_cons_none hr, List.filterMap_nil, List.append_nil]
      exact h.once
    | some r =>
      rw [List.filterMap_cons_some hr, List.filterMap_nil]
      refine List.nodup_append.2 ⟨h.once, List.nodup_singleton _, fun x hx y hy heq => ?_⟩
      obtain ⟨e', he', hx⟩ := List.mem_filterMap.1 hx
      rw [List.mem_singleton.1 hy] at heq
      have hreversed : b.reversed r = true := List.any_eq_true.2 ⟨e', he', decide_eq_true (hx.trans (congrArg some heq))⟩
      rw [(hundoes r hr).1] at hreversed
      cases hreversed

end Lawful

end Book

end Bookkeeping
