import Mathlib.Algebra.BigOperators.Group.List.Basic
import Mathlib.Algebra.Ring.Int.Defs
import Mathlib.Data.List.Forall2
import Mathlib.Data.List.Nodup

/-!
# Lists that correspond entry by entry, and sums over classes

What membership in one of two related or zipped lists says about the other, and sums over
the entries of a list taken class by class.
-/

namespace Collections

variable {α β : Type} {R : α → β → Prop} {as : List α} {bs : List β}

theorem Forall₂.exists_right (h : List.Forall₂ R as bs) {a : α} (ha : a ∈ as) : ∃ b ∈ bs, R a b := by
  induction h with
  | nil => simp at ha
  | cons hr _ ih =>
    rcases List.mem_cons.1 ha with rfl | ha
    · exact ⟨_, List.mem_cons_self .., hr⟩
    · obtain ⟨b, hb, hr⟩ := ih ha
      exact ⟨b, List.mem_cons_of_mem _ hb, hr⟩

theorem Forall₂.exists_left (h : List.Forall₂ R as bs) {b : β} (hb : b ∈ bs) : ∃ a ∈ as, R a b := by
  induction h with
  | nil => simp at hb
  | cons hr _ ih =>
    rcases List.mem_cons.1 hb with rfl | hb
    · exact ⟨_, List.mem_cons_self .., hr⟩
    · obtain ⟨a, ha, hr⟩ := ih hb
      exact ⟨a, List.mem_cons_of_mem _ ha, hr⟩

theorem Forall₂.getElem?_right (h : List.Forall₂ R as bs) {i : Nat} {a : α} (ha : as[i]? = some a) :
    ∃ b, bs[i]? = some b ∧ R a b := by
  induction h generalizing i with
  | nil => cases ha
  | cons hr _ ih =>
    cases i with
    | zero => cases ha; exact ⟨_, rfl, hr⟩
    | succ i => exact ih ha

theorem Forall₂.getElem?_left (h : List.Forall₂ R as bs) {i : Nat} {b : β} (hb : bs[i]? = some b) :
    ∃ a, as[i]? = some a ∧ R a b := by
  obtain ⟨a, ha, hr⟩ := Forall₂.getElem?_right h.flip hb
  exact ⟨a, ha, hr⟩

theorem Forall₂.imp_mem {S : α → β → Prop} (h : List.Forall₂ R as bs) (hs : ∀ a ∈ as, ∀ b ∈ bs, R a b → S a b) :
    List.Forall₂ S as bs := by
  induction h with
  | nil => exact .nil
  | cons hr _ ih =>
    exact .cons (hs _ (List.mem_cons_self ..) _ (List.mem_cons_self ..) hr)
      (ih fun a ha b hb => hs a (List.mem_cons_of_mem _ ha) b (List.mem_cons_of_mem _ hb))

theorem Forall₂.map_eq {γ : Type} {f : α → γ} {g : β → γ} (h : List.Forall₂ R as bs)
    (hfg : ∀ a ∈ as, ∀ b ∈ bs, R a b → f a = g b) : as.map f = bs.map g := by
  induction h with
  | nil => rfl
  | cons hr _ ih =>
    rw [List.map_cons, List.map_cons, hfg _ (List.mem_cons_self ..) _ (List.mem_cons_self ..) hr,
      ih fun a ha b hb => hfg a (List.mem_cons_of_mem _ ha) b (List.mem_cons_of_mem _ hb)]

theorem exists_of_mem_zipWith {γ : Type} {f : α → β → γ} {c : γ} (h : c ∈ as.zipWith f bs) :
    ∃ a ∈ as, ∃ b ∈ bs, c = f a b := by
  rw [← List.map_uncurry_zip_eq_zipWith] at h
  obtain ⟨⟨a, b⟩, hmem, rfl⟩ := List.mem_map.1 h
  obtain ⟨ha, hb⟩ := List.of_mem_zip hmem
  exact ⟨a, ha, b, hb, rfl⟩

/-- Zipped with a list as long, and reading only the left. -/
theorem zipWith_left {γ : Type} {f : α → γ} (h : as.length ≤ bs.length) : as.zipWith (fun a _ => f a) bs = as.map f := by
  rw [← List.map_uncurry_zip_eq_zipWith]
  show (as.zip bs).map (f ∘ Prod.fst) = as.map f
  rw [← List.map_map, List.map_fst_zip h]

theorem any_mapIdx {f : Nat → α → Bool} : (as.mapIdx f).any id = true ↔ ∃ i a, as[i]? = some a ∧ f i a = true := by
  constructor
  · intro h
    obtain ⟨x, hx, hid⟩ := List.any_eq_true.1 h
    obtain ⟨i, hi⟩ := List.mem_iff_getElem?.1 hx
    rw [List.getElem?_mapIdx] at hi
    obtain ⟨a, ha, rfl⟩ := Option.map_eq_some_iff.1 hi
    exact ⟨i, a, ha, hid⟩
  · rintro ⟨i, a, ha, hf⟩
    refine List.any_eq_true.2 ⟨true, List.mem_iff_getElem?.2 ⟨i, ?_⟩, rfl⟩
    rw [List.getElem?_mapIdx, ha, Option.map_some, hf]

/-- What a list without duplicates has, it has at one place. -/
theorem existsUnique_getElem? (h : as.Nodup) {a : α} (ha : a ∈ as) : ∃! i : Nat, as[i]? = some a := by
  obtain ⟨i, hi⟩ := List.mem_iff_getElem?.1 ha
  refine ⟨i, hi, fun j hj => ?_⟩
  have hlt : i < as.length := (List.getElem?_eq_some_iff.1 hi).1
  exact ((List.getElem?_inj hlt h).1 (hi.trans hj.symm)).symm

/-- Along a chain whose every step changes the sign, the entries cancel in pairs. -/
theorem sum_alternating {S : α → α → Prop} {f : α → Int} (hs : ∀ a b, S a b → f b = -f a) {a : α}
    (h : (a :: as).IsChain S) : ((a :: as).map f).sum = if (a :: as).length % 2 = 1 then f a else 0 := by
  induction as generalizing a with
  | nil => simp
  | cons b as ih =>
    rw [List.isChain_cons_cons] at h
    rw [List.map_cons, List.sum_cons, ih h.2, hs a b h.1]
    simp only [List.length_cons]
    split <;> split <;> omega

/-- Gathering the members of each class in turn only changes their order. -/
theorem perm_flatMap_filter {κ : Type} [DecidableEq κ] {f : α → κ} {keys : List κ} (hn : keys.Nodup)
    (h : ∀ a ∈ as, f a ∈ keys) : (keys.flatMap fun k => as.filter fun a => f a = k).Perm as := by
  induction keys generalizing as with
  | nil =>
    obtain rfl : as = [] := List.eq_nil_iff_forall_not_mem.2 fun a ha => absurd (h a ha) List.not_mem_nil
    exact .refl _
  | cons k keys ih =>
    rw [List.nodup_cons] at hn
    have hrest : ∀ a ∈ as.filter fun a => ¬ f a = k, f a ∈ keys := by
      intro a ha
      obtain ⟨ha, hk⟩ := List.mem_filter.1 ha
      exact (List.mem_cons.1 (h a ha)).resolve_left (of_decide_eq_true hk)
    have hsame : (keys.flatMap fun k' => as.filter fun a => f a = k') =
        keys.flatMap fun k' => (as.filter fun a => ¬ f a = k).filter fun a => f a = k' := by
      refine List.flatMap_congr fun k' hk' => ?_
      rw [List.filter_filter]
      refine List.filter_congr fun a _ => ?_
      by_cases ha : f a = k'
      · have hne : k' ≠ k := fun he => hn.1 (he ▸ hk')
        simp [ha, hne]
      · simp [ha]
    rw [List.flatMap_cons, hsame]
    have hperm := (ih hn.2 hrest).append_left (as.filter fun a => f a = k)
    simp only [decide_not] at hperm ⊢
    exact hperm.trans (List.filter_append_perm _ as)

/-- A class of a list whose keys differ has one entry at most. -/
theorem length_filter_le_one {κ : Type} [DecidableEq κ] {f : α → κ} (h : (as.map f).Nodup) (k : κ) :
    (as.filter fun a => f a = k).length ≤ 1 := by
  have hcount := List.nodup_iff_count_le_one.1 h k
  rw [List.count, List.countP_map] at hcount
  rw [← List.countP_eq_length_filter]
  exact hcount

/-! ## Sums over classes -/

variable {κ : Type} [DecidableEq κ] (f : α → κ) (a : α → Int) (P : κ → Bool)

/-- A sum over classes is that of one class and that of the others. -/
theorem sum_class_split (k : κ) (as : List α) :
    ((as.filter fun x => P (f x)).map a).sum =
      (if P k then ((as.filter fun x => f x = k).map a).sum else 0) +
        (((as.filter fun x => f x ≠ k).filter fun x => P (f x)).map a).sum := by
  induction as with
  | nil => simp
  | cons x xs ih =>
    by_cases hk : f x = k
    · subst hk
      by_cases hp : P (f x) = true
      · simp only [List.filter_cons, hp, decide_true, if_true, List.map_cons, List.sum_cons, ih, ne_eq, not_true_eq_false,
          decide_false, Bool.false_eq_true, if_false]
        omega
      · simp only [List.filter_cons, hp, ih, ne_eq, not_true_eq_false, decide_false, Bool.false_eq_true, if_false]
    · by_cases hp : P (f x) = true
      · simp only [List.filter_cons, hp, hk, ih, ne_eq, not_false_eq_true, decide_true, decide_false, Bool.false_eq_true, if_false,
          if_true, List.map_cons, List.sum_cons]
        omega
      · simp only [List.filter_cons, hp, hk, ih, ne_eq, not_false_eq_true, decide_true, decide_false, Bool.false_eq_true,
          if_false, if_true]

/-- Where every class adds up to nothing, any classes together do. -/
theorem sum_classes_eq_zero {as : List α} (h : ∀ k, ((as.filter fun x => f x = k).map a).sum = 0) :
    ((as.filter fun x => P (f x)).map a).sum = 0 := by
  induction hn : as.length using Nat.strongRecOn generalizing as with
  | ind n ih =>
    cases as with
    | nil => rfl
    | cons x xs =>
      have hshort : ((x :: xs).filter fun y => f y ≠ f x).length < n := by
        rw [← hn, List.filter_cons_of_neg (by simp), List.length_cons]
        exact Nat.lt_succ_of_le (List.length_filter_le _ _)
      have hrest : ∀ k, ((((x :: xs).filter fun y => f y ≠ f x).filter fun y => f y = k).map a).sum = 0 := by
        intro k
        rw [List.filter_filter]
        by_cases hk : k = f x
        · rw [List.filter_eq_nil_iff.2]
          · rfl
          · intro y _ hy
            simp only [Bool.and_eq_true, decide_eq_true_eq] at hy
            exact hy.2 (hy.1.trans hk)
        · rw [← h k]
          congr 2
          refine List.filter_congr fun y _ => ?_
          by_cases hy : f y = k
          · simp [hy, hk]
          · simp [hy]
      rw [sum_class_split f a P (f x), h (f x), ih _ hshort hrest rfl]
      simp

/-- Two passes that each succeed come to one. -/
theorem mapM_mapM_ok {α β γ ε : Type} {f : α → Except ε β} {g : β → Except ε γ} {k : α → γ} {l : List α}
    (h : ∀ x ∈ l, ∃ y, f x = .ok y ∧ g y = .ok (k x)) : ((l.mapM f).bind fun ys => ys.mapM g) = .ok (l.map k) := by
  induction l with
  | nil => rfl
  | cons x l ih =>
    rw [List.forall_mem_cons] at h
    obtain ⟨⟨y, hf, hg⟩, hrest⟩ := h
    have ih := ih hrest
    cases hl : l.mapM f with
    | error e =>
      rw [hl] at ih
      cases ih
    | ok ys =>
      rw [hl] at ih
      have ih : ys.mapM g = .ok (l.map k) := ih
      simp only [List.mapM_cons, hf, hl, hg, ih, bind, Except.bind, pure, Except.pure, List.map_cons]

end Collections
