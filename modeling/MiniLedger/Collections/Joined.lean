import Mathlib.Data.List.Induction

/-!
# Texts joined by a separator

Two joins of equally many texts can be told apart by reading them from the end, as long as
only the first text may hold the separator. Printed integers are free of any separator that
is neither a digit nor the sign.
-/

namespace Collections

/-- The separator does not occur in the text. -/
def Free (c : Char) (text : String) : Prop := c ∉ text.toList

instance (c : Char) (text : String) : Decidable (Free c text) := inferInstanceAs (Decidable (¬ _))

variable {c : Char} {sep : String}

/-- What comes after the last separator, and what before. -/
theorem append_cons_inj {l l' r r' : List Char} (hr : c ∉ r) (hr' : c ∉ r') (h : l ++ c :: r = l' ++ c :: r') :
    l = l' ∧ r = r' := by
  induction l generalizing l' with
  | nil =>
    cases l' with
    | nil => simpa using h
    | cons x l' =>
      simp only [List.nil_append, List.cons_append, List.cons.injEq] at h
      exact absurd (h.2 ▸ List.mem_append_right _ (List.mem_cons_self ..)) hr
  | cons x l ih =>
    cases l' with
    | nil =>
      simp only [List.nil_append, List.cons_append, List.cons.injEq] at h
      exact absurd (h.2 ▸ List.mem_append_right _ (List.mem_cons_self ..)) hr'
    | cons x' l' =>
      simp only [List.cons_append, List.cons.injEq] at h
      obtain ⟨hl, hr⟩ := ih h.2
      exact ⟨by rw [h.1, hl], hr⟩

/-- Joins of equally many texts, of which only the first may hold the separator. -/
theorem join_cons_injective (hsep : sep.toList = [c]) {x y : String} {xs ys : List String} (hlen : xs.length = ys.length)
    (hx : ∀ t ∈ xs, Free c t) (hy : ∀ t ∈ ys, Free c t)
    (h : sep.intercalate (x :: xs) = sep.intercalate (y :: ys)) : x = y ∧ xs = ys := by
  induction xs using List.reverseRecOn generalizing ys with
  | nil =>
    obtain rfl : ys = [] := List.length_eq_zero_iff.1 hlen.symm
    exact ⟨by simpa using h, rfl⟩
  | append_singleton xs t ih =>
    cases ys using List.reverseRecOn with
    | nil => simp at hlen
    | append_singleton ys u =>
      have snoc : ∀ (z : String) (zs : List String) (v : String), (sep.intercalate (z :: (zs ++ [v]))).toList =
          (sep.intercalate (z :: zs)).toList ++ c :: v.toList := by
        intro z zs v
        rw [← List.cons_append, String.intercalate_append_of_ne_nil (by simp) (by simp), String.intercalate_singleton,
          String.toList_append, String.toList_append, hsep, List.append_assoc]
        rfl
      have hlast := congrArg String.toList h
      rw [snoc, snoc] at hlast
      obtain ⟨hinit, htail⟩ := append_cons_inj (hx t (by simp)) (hy u (by simp)) hlast
      obtain ⟨rfl, rfl⟩ := ih (by simpa using hlen) (fun t ht => hx t (by simp [ht])) (fun t ht => hy t (by simp [ht]))
        (String.toList_injective hinit)
      exact ⟨rfl, by rw [String.toList_injective htail]⟩

/-- A printed integer has only digits and a sign. -/
theorem free_toString (hdigit : c.isDigit = false) (hsign : c ≠ '-') (n : Int) : Free c (toString n) := by
  have digits : ∀ k : Nat, Free c k.repr := by
    intro k hc
    rw [Nat.repr_eq_ofList_toDigits, String.toList_ofList] at hc
    rw [Nat.isDigit_of_mem_toDigits (by omega) (by omega) hc] at hdigit
    cases hdigit
  rw [Free, Int.toString_eq_repr, Int.repr_eq_if]
  split
  · exact digits _
  · rw [String.toList_append, List.mem_append, not_or]
    exact ⟨by simpa using hsign, digits _⟩

end Collections
