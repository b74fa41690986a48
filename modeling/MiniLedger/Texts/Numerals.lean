import Mathlib.Algebra.Order.Field.Rat
import Mathlib.Tactic.FieldSimp
import Mathlib.Tactic.Ring

/-!
# Numerals

Texts of digits and the numbers they stand for: numerals without superfluous zeros, decimals
with a fraction, integers with a sign, and the grouping of digits in threes.
-/

namespace Texts

def Digits (text : List Char) : Prop := ∀ c ∈ text, c.isDigit = true

instance (text : List Char) : Decidable (Digits text) := decidable_of_iff (text.all Char.isDigit = true) List.all_eq_true

/-- The number the digits stand for. -/
def value (text : List Char) : Nat := Nat.ofDigitChars 10 text 0

/-- Digits with no superfluous zero in front. -/
structure Numeral (text : List Char) : Prop where
  nonempty : text ≠ []
  digits : Digits text
  noLeadingZero : text.head? = some '0' → text = ['0']

/-- The canonical text of an integer. -/
inductive Writes : List Char → Int → Prop where
  | nonneg {digits} (h : Numeral digits) : Writes digits (value digits)
  | neg {digits} (h : Numeral digits) (hzero : digits ≠ ['0']) : Writes ('-' :: digits) (-value digits)

/-- Digits, or digits with a point and more digits behind it. -/
inductive DecimalText : List Char → List Char → List Char → Prop where
  | whole {whole} (hne : whole ≠ []) (h : Digits whole) : DecimalText whole whole []
  | point {whole fraction} (hne : whole ≠ []) (h : Digits whole) (hne' : fraction ≠ []) (h' : Digits fraction) :
      DecimalText (whole ++ '.' :: fraction) whole fraction

/-- The number with the digits `whole` before and `fraction` behind the point. -/
def decimalValue (whole fraction : List Char) : ℚ := value whole + value fraction / 10 ^ fraction.length

/-- Three digits to a group, fewer in the first one only. -/
def Grouped : List (List Char) → Prop
  | [] => False
  | group :: groups => 0 < group.length ∧ group.length ≤ 3 ∧ ∀ g ∈ groups, g.length = 3

variable {s t whole fraction : List Char} {n k : Nat}

/-! ## Values -/

theorem Digits.head {c : Char} (h : Digits (c :: t)) : c.isDigit = true := h c (List.mem_cons_self ..)

theorem Digits.tail {c : Char} (h : Digits (c :: t)) : Digits t := fun d hd => h d (List.mem_cons_of_mem _ hd)

theorem Digits.append (hs : Digits s) (ht : Digits t) : Digits (s ++ t) := by
  intro c hc
  rcases List.mem_append.1 hc with hc | hc
  · exact hs c hc
  · exact ht c hc

theorem digits_zeros (n : Nat) : Digits (List.replicate n '0') := by
  intro c hc
  rw [List.eq_of_mem_replicate hc]
  rfl

theorem value_append (s t : List Char) : value (s ++ t) = value s * 10 ^ t.length + value t := by
  rw [value, Nat.ofDigitChars_append, Nat.ofDigitChars_eq_ofDigitChars_zero, Nat.mul_comm]
  rfl

theorem value_zeros (n : Nat) : value (List.replicate n '0') = 0 := by
  rw [value, Nat.ofDigitChars_replicate_zero, Nat.mul_zero]

/-- Zeros in front change nothing. -/
theorem value_zeros_append (n : Nat) (t : List Char) : value (List.replicate n '0' ++ t) = value t := by
  rw [value_append, value_zeros, Nat.zero_mul, Nat.zero_add]

/-- The digits of a decimal, filled up to `k` behind the point, stand for `10 ^ k` times the
decimal. -/
theorem value_filled (hk : fraction.length ≤ k) :
    (value (whole ++ fraction.rightpad k '0') : ℚ) = decimalValue whole fraction * 10 ^ k := by
  obtain ⟨j, rfl⟩ := Nat.exists_eq_add_of_le hk
  have hpad : fraction.rightpad (fraction.length + j) '0' = fraction ++ List.replicate j '0' := by
    rw [List.rightpad, Nat.add_sub_cancel_left]
  rw [hpad, value_append, value_append, value_zeros, List.length_append, List.length_replicate, decimalValue]
  push_cast
  rw [pow_add]
  field_simp
  ring

/-! ## Decimals -/

theorem Digits.point_notMem (h : Digits t) : '.' ∉ t := by
  intro hc
  have hdigit := h _ hc
  cases hdigit

theorem Digits.comma_notMem (h : Digits t) : ',' ∉ t := by
  intro hc
  have hdigit := h _ hc
  cases hdigit

/-- The parts of a decimal are what stands before and behind its point. -/
theorem DecimalText.splitOn_point (h : DecimalText t whole fraction) :
    (t.splitOn '.').headD [] = whole ∧ ((t.splitOn '.').drop 1).headD [] = fraction := by
  cases h with
  | whole _ hdigits =>
    rw [List.splitOn_eq_singleton hdigits.point_notMem]
    exact ⟨rfl, rfl⟩
  | point _ hdigits _ hdigits' =>
    rw [List.splitOn_append_cons_self, List.splitOn_eq_singleton hdigits.point_notMem,
      List.splitOn_eq_singleton hdigits'.point_notMem]
    exact ⟨rfl, rfl⟩

theorem DecimalText.digits (h : DecimalText t whole fraction) : whole ≠ [] ∧ Digits whole ∧ Digits fraction := by
  cases h with
  | whole hne hdigits => exact ⟨hne, hdigits, by simp [Digits]⟩
  | point hne hdigits _ hdigits' => exact ⟨hne, hdigits, hdigits'⟩

/-- A text is a decimal in one way at most. -/
theorem DecimalText.unique {whole' fraction' : List Char} (h : DecimalText t whole fraction)
    (h' : DecimalText t whole' fraction') : whole = whole' ∧ fraction = fraction' := by
  obtain ⟨hwhole, hfraction⟩ := h.splitOn_point
  obtain ⟨hwhole', hfraction'⟩ := h'.splitOn_point
  exact ⟨hwhole.symm.trans hwhole', hfraction.symm.trans hfraction'⟩

theorem Digits.filled (hs : Digits whole) (ht : Digits fraction) (k : Nat) : Digits (whole ++ fraction.rightpad k '0') :=
  hs.append (ht.append (digits_zeros _))

/-! ## Numerals -/

/-- The text without its leading zeros, the last character apart. -/
def stripZeros : List Char → List Char
  | '0' :: c :: rest => stripZeros (c :: rest)
  | text => text

theorem stripZeros_cons_zero (h : t ≠ []) : stripZeros ('0' :: t) = stripZeros t := by
  cases t with
  | nil => exact absurd rfl h
  | cons c rest => rfl

theorem stripZeros_cons_of_ne {c : Char} (hc : c ≠ '0') (t : List Char) : stripZeros (c :: t) = c :: t := by
  unfold stripZeros
  split
  · rename_i heq
    cases heq
    exact absurd rfl hc
  · rfl

theorem numeral_stripZeros (hne : t ≠ []) (ht : Digits t) : Numeral (stripZeros t) ∧ value (stripZeros t) = value t := by
  induction t with
  | nil => exact absurd rfl hne
  | cons c rest ih =>
    by_cases hc : c = '0'
    · subst hc
      cases rest with
      | nil => exact ⟨⟨hne, ht, fun _ => rfl⟩, rfl⟩
      | cons d rest =>
        rw [stripZeros_cons_zero (List.cons_ne_nil d rest)]
        obtain ⟨hnumeral, hvalue⟩ := ih (List.cons_ne_nil d rest) ht.tail
        exact ⟨hnumeral, hvalue.trans (value_zeros_append 1 (d :: rest)).symm⟩
    · rw [stripZeros_cons_of_ne hc]
      exact ⟨⟨hne, ht, fun hhead => absurd (Option.some.inj hhead) hc⟩, rfl⟩

theorem digitChar_of_isDigit {c : Char} (hc : c.isDigit = true) : c.toNat - 48 < 10 ∧ Nat.digitChar (c.toNat - 48) = c := by
  obtain ⟨hlow, hhigh⟩ := Char.isDigit_iff_toNat.1 hc
  have hzero : '0'.toNat = 48 := rfl
  have hnine : '9'.toNat = 57 := rfl
  have hlt : c.toNat - 48 < 10 := by omega
  refine ⟨hlt, ?_⟩
  apply Char.toNat_inj.1
  rw [Nat.toNat_digitChar_of_lt_ten hlt]
  omega

/-- Reading on behind a positive number puts its digits in front. -/
theorem toDigits_ofDigitChars (ht : Digits t) (hn : 0 < n) :
    Nat.toDigits 10 (Nat.ofDigitChars 10 t n) = Nat.toDigits 10 n ++ t := by
  induction t generalizing n with
  | nil => rw [Nat.ofDigitChars_nil, List.append_nil]
  | cons c rest ih =>
    obtain ⟨hlt, hchar⟩ := digitChar_of_isDigit ht.head
    have hdigit : Nat.toDigits 10 (10 * n + (c.toNat - 48)) = Nat.toDigits 10 n ++ [c] := by
      rw [← Nat.toDigits_append_toDigits (by omega) hn hlt, Nat.toDigits_of_lt_base hlt, hchar]
    have hstep : Nat.ofDigitChars 10 (c :: rest) n = Nat.ofDigitChars 10 rest (10 * n + (c.toNat - 48)) :=
      Nat.ofDigitChars_cons
    rw [hstep, ih ht.tail (by omega), hdigit, List.append_assoc]
    rfl

/-- A numeral is the text of its value. -/
theorem Numeral.toDigits (h : Numeral t) : Nat.toDigits 10 (value t) = t := by
  obtain ⟨c, rest, rfl⟩ := List.exists_cons_of_ne_nil h.nonempty
  obtain ⟨hlt, hchar⟩ := digitChar_of_isDigit h.digits.head
  by_cases hzero : c.toNat - 48 = 0
  · rw [hzero] at hchar
    rw [h.noLeadingZero (congrArg some hchar.symm)]
    rfl
  · have hvalue : value (c :: rest) = Nat.ofDigitChars 10 rest (c.toNat - 48) := by
      rw [value, Nat.ofDigitChars_cons, Nat.mul_zero, Nat.zero_add]
      rfl
    rw [hvalue, toDigits_ofDigitChars h.digits.tail (by omega),
      Nat.toDigits_of_lt_base hlt, hchar]
    rfl

theorem Numeral.unique (hs : Numeral s) (ht : Numeral t) (h : value s = value t) : s = t := by
  rw [← hs.toDigits, h, ht.toDigits]

theorem Numeral.value_pos (h : Numeral t) (hzero : t ≠ ['0']) : 0 < value t := by
  apply Nat.pos_of_ne_zero
  intro hvalue
  apply hzero
  rw [← h.toDigits, hvalue]
  rfl

theorem Writes.signed {i : Int} (h : Writes t i) :
    ∃ digits, Numeral digits ∧ t = (if i < 0 then ['-'] else []) ++ digits ∧
      (if i < 0 then -1 else 1) * (value digits : Int) = i := by
  cases h with
  | nonneg h =>
    refine ⟨t, h, ?_⟩
    rw [if_neg (by omega), if_neg (by omega), one_mul]
    exact ⟨rfl, rfl⟩
  | @neg digits h hzero =>
    have hpos := h.value_pos hzero
    refine ⟨digits, h, ?_⟩
    rw [if_pos (by omega), if_pos (by omega), neg_one_mul]
    exact ⟨rfl, rfl⟩

/-! ## Digits in front of the point and behind it -/

/-- A numeral filled up with zeros to more than `k` digits. -/
def filled (k : Nat) (digits : List Char) : List Char := digits.leftpad (k + 1) '0'

theorem filled_eq (k : Nat) (t : List Char) : filled k t = List.replicate (k + 1 - t.length) '0' ++ t := rfl

theorem length_filled (k : Nat) (t : List Char) : k + 1 ≤ (filled k t).length := by
  rw [filled_eq, List.length_append, List.length_replicate]
  omega

/-- The digits in front of the last `k`. -/
def wholeDigits (k : Nat) (digits : List Char) : List Char := (filled k digits).take ((filled k digits).length - k)

/-- The last `k` digits. -/
def fractionDigits (k : Nat) (digits : List Char) : List Char := (filled k digits).drop ((filled k digits).length - k)

theorem wholeDigits_append (k : Nat) (t : List Char) : wholeDigits k t ++ fractionDigits k t = filled k t :=
  List.take_append_drop ..

theorem length_wholeDigits (k : Nat) (t : List Char) : (wholeDigits k t).length = (filled k t).length - k := by
  rw [wholeDigits, List.length_take]
  omega

theorem length_fractionDigits (k : Nat) (t : List Char) : (fractionDigits k t).length = k := by
  have hlength := length_filled k t
  rw [fractionDigits, List.length_drop]
  omega

theorem Numeral.digits_filled (h : Numeral t) : Digits (filled k t) := (digits_zeros _).append h.digits

theorem Numeral.digits_fraction (h : Numeral t) : Digits (fractionDigits k t) :=
  fun c hc => h.digits_filled c (List.mem_of_mem_drop hc)

/-- What stands in front of the last `k` digits is a numeral. -/
theorem Numeral.wholeDigits (h : Numeral t) : Numeral (wholeDigits k t) := by
  have hlength := length_filled k t
  have hlen := length_wholeDigits k t
  refine ⟨List.ne_nil_of_length_pos (by omega), fun c hc => h.digits_filled c (List.mem_of_mem_take hc), fun hhead => ?_⟩
  have hfirst : (filled k t).head? = some '0' := by
    rw [Texts.wholeDigits, List.head?_take, if_neg (by omega)] at hhead
    exact hhead
  by_cases hshort : t.length ≤ k
  · -- one digit, which is the zero
    have hone : (Texts.wholeDigits k t).length = 1 := by
      rw [hlen, filled_eq, List.length_append, List.length_replicate]
      omega
    obtain ⟨c, hc⟩ := List.length_eq_one_iff.1 hone
    rw [hc] at hhead ⊢
    rw [Option.some.inj hhead]
  · -- the digits are those of the numeral
    have hsame : filled k t = t := by
      rw [filled_eq, Nat.sub_eq_zero_of_le (by omega), List.replicate_zero, List.nil_append]
    rw [hsame] at hfirst
    have hzero := h.noLeadingZero hfirst
    have hk : k = 0 := by
      rw [hzero, List.length_singleton] at hshort
      omega
    subst hk
    rw [hzero]
    rfl

theorem decimalValue_filled (t : List Char) (k : Nat) :
    decimalValue (wholeDigits k t) (fractionDigits k t) = (value t : ℚ) / 10 ^ k := by
  have hvalue : value t = value (wholeDigits k t) * 10 ^ k + value (fractionDigits k t) := by
    have happ := value_append (wholeDigits k t) (fractionDigits k t)
    rw [wholeDigits_append, length_fractionDigits] at happ
    rw [← happ, filled_eq, value_zeros_append]
  rw [decimalValue, length_fractionDigits, hvalue]
  push_cast
  field_simp

/-! ## Groups of three -/

/-- A comma before each digit, the first one apart, with a multiple of three of them from
there on. -/
def insertCommas (inside : Bool) : List Char → List Char
  | [] => []
  | c :: rest => (if inside = true ∧ (c :: rest).length % 3 = 0 then [','] else []) ++ c :: insertCommas true rest

theorem insertCommas_inside (s : List Char) : ∃ (first : List Char) (groups : List (List Char)), s = first ++ groups.flatten ∧
    first.length = s.length % 3 ∧ (∀ g ∈ groups, g.length = 3) ∧
      insertCommas true s = first ++ groups.flatMap fun g => ',' :: g := by
  induction s with
  | nil => exact ⟨[], [], rfl, rfl, by simp, rfl⟩
  | cons c rest ih =>
    obtain ⟨first, groups, hrest, hfirst, hgroups, hcommas⟩ := ih
    rw [insertCommas, hcommas, List.length_cons]
    by_cases hthree : (rest.length + 1) % 3 = 0
    · -- a group is full
      refine ⟨[], (c :: first) :: groups, ?_, by simp [hthree], ?_, ?_⟩
      · rw [List.nil_append, List.flatten_cons, List.cons_append, ← hrest]
      · rw [List.forall_mem_cons]
        refine ⟨?_, hgroups⟩
        rw [List.length_cons]
        omega
      · simp [hthree]
    · refine ⟨c :: first, groups, ?_, ?_, hgroups, ?_⟩
      · rw [List.cons_append, ← hrest]
      · rw [List.length_cons]
        omega
      · simp [hthree]

theorem intercalate_comma (g : List Char) (groups : List (List Char)) :
    [','].intercalate (g :: groups) = g ++ groups.flatMap fun g => ',' :: g := by
  induction groups generalizing g with
  | nil => simp
  | cons h groups ih => rw [List.intercalate_cons_cons, ih, List.flatMap_cons, List.append_assoc]; rfl

/-- The commas stand between the groups. -/
theorem insertCommas_grouped (h : s ≠ []) : ∃ groups, Grouped groups ∧ groups.flatten = s ∧
    insertCommas false s = [','].intercalate groups := by
  obtain ⟨c, rest, rfl⟩ := List.exists_cons_of_ne_nil h
  obtain ⟨first, groups, hrest, hfirst, hgroups, hcommas⟩ := insertCommas_inside rest
  refine ⟨(c :: first) :: groups, ⟨Nat.succ_pos _, ?_, hgroups⟩, ?_, ?_⟩
  · rw [List.length_cons]
    omega
  · rw [List.flatten_cons, List.cons_append, ← hrest]
  · rw [insertCommas, hcommas, intercalate_comma]
    simp

theorem filter_intercalate {groups : List (List Char)} (h : ∀ g ∈ groups, ',' ∉ g) :
    ([','].intercalate groups).filter (fun c => c ≠ ',') = groups.flatten := by
  cases groups with
  | nil => rfl
  | cons g groups =>
    rw [List.forall_mem_cons] at h
    have keep : ∀ g : List Char, ',' ∉ g → g.filter (fun c => c ≠ ',') = g := by
      intro g hg
      refine List.filter_eq_self.2 fun c hc => ?_
      rw [decide_eq_true_eq]
      rintro rfl
      exact hg hc
    rw [intercalate_comma, List.filter_append, keep g h.1, List.flatten_cons]
    congr 1
    have hrest := h.2
    clear h
    induction groups with
    | nil => rfl
    | cons g' groups ih =>
      rw [List.forall_mem_cons] at hrest
      rw [List.flatMap_cons, List.filter_append, ih hrest.2, List.flatten_cons, List.filter_cons_of_neg (by simp),
        keep g' hrest.1]

end Texts
