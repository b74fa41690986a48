import Mathlib.Data.List.DropRight
import MiniLedger.Ledger.Services
import MiniLedger.Texts.Numerals
import MiniLedger.Texts.Regex

/-!
# Money as text in the dashboard

`formatMoney` shows minor units and `toMinorUnits` reads what the user typed. Both work on
texts alone, with three regular expressions; no number is computed. What they say about
numbers is proved from the digits. Lengths count characters, as UTF-16 does for digits.
-/

namespace MiniLedger.Dashboard

open Texts

/-! ## `web/src/lib/money.ts` -/

structure CurrencyDef where
  code : String
  scale : Nat
  deriving DecidableEq, Repr

def currencies : List CurrencyDef := [⟨"USD", 2⟩, ⟨"EUR", 2⟩, ⟨"JPY", 0⟩]

def scaleOf (code : String) : Nat := ((currencies.find? fun currency => currency.code == code).map CurrencyDef.scale).getD 2

def scaleFor (currency : String) : Nat := scaleOf currency

/-- `\d` -/
def digit : Regex := .char Char.isDigit

/-- `/\B(?=(\d{3})+(?!\d))/g` -/
def thousands : Regex :=
  .seq .notBoundary (.ahead (.seq (.plus (.seq digit (.seq digit digit))) (.notAhead digit)))

/-- `/^\d+(\.\d+)?$/` -/
def amount : Regex :=
  .seq .start (.seq (.plus digit) (.seq (.optional (.seq (.char (· == '.')) (.plus digit))) .stop))

/-- `/^0+(?=\d)/` -/
def leadingZeros : Regex := .seq .start (.seq (.plus (.char (· == '0'))) (.ahead digit))

/-- The white space and line terminators that `trim` removes. -/
def isSpace (c : Char) : Bool :=
  c ∈ ['\t', '\n', '\x0b', '\x0c', '\r', ' ', '\u00a0', '\u1680', '\u2028', '\u2029', '\u202f', '\u205f', '\u3000',
      '\ufeff'] ∨
    '\u2000' ≤ c ∧ c ≤ '\u200a'

def trim (text : List Char) : List Char := (text.dropWhile isSpace).rdropWhile isSpace

def formatMoney (minorUnits currency : String) : String :=
  let scale := scaleOf currency
  let text := minorUnits.toList
  let negative := ['-'].isPrefixOf text
  let digits := (if negative then text.drop 1 else text).leftpad (scale + 1) '0'
  let whole := digits.take (digits.length - scale)
  let grouped := thousands.replaceAll [','] (if whole = [] then ['0'] else whole)
  let fraction := if 0 < scale then '.' :: digits.drop (digits.length - scale) else []
  String.ofList ((if negative then ['-'] else []) ++ grouped ++ fraction)

def toMinorUnits (input currency : String) : Option String :=
  let scale := scaleOf currency
  let trimmed := trim input.toList
  if ¬ amount.test trimmed then none
  else
    let parts := trimmed.splitOn '.'
    let whole := parts.headD []
    let fraction := (parts.drop 1).headD []
    if scale < fraction.length then none
    else
      let minor := leadingZeros.replace [] (whole ++ fraction.rightpad scale '0')
      some (String.ofList (if minor = [] then ['0'] else minor))

/-! ## The three patterns -/

variable {t s whole fraction : List Char} {code input : String}

/-- What the amount pattern accepts. -/
theorem amount_test : amount.test t = true ↔ ∃ whole fraction, DecimalText t whole fraction := by
  rw [amount, Regex.test_start]
  constructor
  · rintro ⟨y, y₁, hwhole, y₂, hfraction, rfl, hstop⟩
    obtain ⟨whole, hne, hdigits, hafter, -⟩ := Regex.matches_plus_char.1 hwhole
    rcases hfraction with ⟨z, ⟨c, rest, hpoint, hc, rfl⟩, hfraction⟩ | rfl
    · obtain ⟨fraction, hne', hdigits', hafter', -⟩ := Regex.matches_plus_char.1 hfraction
      refine ⟨whole, fraction, ?_⟩
      have ht : t = whole ++ '.' :: fraction := by
        simp only at hafter hafter'
        rw [hafter, hpoint, hafter', hstop, List.append_nil, beq_iff_eq.1 hc]
      rw [ht]
      exact .point hne hdigits hne' hdigits'
    · refine ⟨whole, [], ?_⟩
      have ht : t = whole := by
        simp only at hafter
        rw [hafter, hstop, List.append_nil]
      rw [ht]
      exact .whole hne hdigits
  · rintro ⟨whole, fraction, h⟩
    cases h with
    | whole hne hdigits =>
      obtain ⟨y, hy, hend⟩ := exists_spans (x := ⟨[], t⟩) (List.append_nil t).symm
      exact ⟨y, y, Regex.matches_plus_char.2 ⟨t, hne, hdigits, hy⟩, y, .inr rfl, rfl, hend⟩
    | point hne hdigits hne' hdigits' =>
      obtain ⟨y, hy, hrest⟩ := exists_spans (x := ⟨[], whole ++ '.' :: fraction⟩) rfl
      obtain ⟨z, hz, hend⟩ := exists_spans (x := ⟨'.' :: y.before, fraction⟩) (List.append_nil fraction).symm
      have hfraction := Regex.matches_plus_char.2 ⟨fraction, hne', hdigits', hz⟩
      exact ⟨z, y, Regex.matches_plus_char.2 ⟨whole, hne, hdigits, hy⟩, z, .inl ⟨_, ⟨'.', fraction, hrest, rfl, rfl⟩, hfraction⟩,
        rfl, hend⟩

/-- The greedy run leaves one digit. -/
theorem star_zeros (before : List Char) (hs : Digits s) (hne : s ≠ []) :
    ∃ y, star (Regex.run (.char (· == '0'))) (Regex.run (.ahead digit) some) ⟨before, s⟩ = some y ∧
      y.after = stripZeros s := by
  induction s generalizing before with
  | nil => exact absurd rfl hne
  | cons c rest ih =>
    have hc : c.isDigit = true := hs.head
    have hhere : Regex.run (.ahead digit) some ⟨before, c :: rest⟩ = some ⟨before, c :: rest⟩ := by
      simp [Regex.run, digit, hc]
    rw [Regex.star_char_cons, hhere]
    by_cases hzero : c = '0'
    · subst hzero
      rw [if_pos (beq_self_eq_true _)]
      cases rest with
      | nil =>
        refine ⟨⟨before, ['0']⟩, ?_, rfl⟩
        rw [Regex.star_char_nil]
        rfl
      | cons d rest =>
        obtain ⟨y, hy, hafter⟩ := ih ('0' :: before) hs.tail (List.cons_ne_nil d rest)
        refine ⟨y, by rw [hy]; rfl, ?_⟩
        rw [hafter, stripZeros_cons_zero (List.cons_ne_nil d rest)]
    · rw [if_neg (by simpa using hzero)]
      exact ⟨_, rfl, (stripZeros_cons_of_ne hzero rest).symm⟩

theorem leadingZeros_replace (hs : Digits s) : leadingZeros.replace [] s = stripZeros s := by
  rw [leadingZeros, Regex.replace_start]
  cases s with
  | nil => rfl
  | cons c rest =>
    by_cases hzero : c = '0'
    · subst hzero
      cases rest with
      | nil => rfl
      | cons d rest =>
        obtain ⟨y, hy, hafter⟩ := star_zeros ['0'] hs.tail (List.cons_ne_nil d rest)
        have hrun : (Regex.seq (.plus (.char (· == '0'))) (.ahead digit)).run some ⟨[], '0' :: d :: rest⟩ = some y := hy
        rw [hrun, Option.map_some, Option.getD_some, List.nil_append, hafter, stripZeros_cons_zero (List.cons_ne_nil d rest)]
    · have hrun : (Regex.seq (.plus (.char (· == '0'))) (.ahead digit)).run some ⟨[], c :: rest⟩ = none := by
        simp [Regex.run, hzero]
      rw [hrun, stripZeros_cons_of_ne hzero]
      rfl

theorem matches_three (x y : Place) : (Regex.seq digit (.seq digit digit)).Matches x y ↔
    ∃ s, s.length = 3 ∧ (∀ c ∈ s, c.isDigit = true) ∧ Spans x s y := by
  constructor
  · rintro ⟨y₁, h₁, y₂, h₂, h₃⟩
    obtain ⟨s₁, hlen₁, hs₁, hspans₁⟩ := (Regex.matches_char _ _).1 h₁
    obtain ⟨s₂, hlen₂, hs₂, hspans₂⟩ := (Regex.matches_char _ _).1 h₂
    obtain ⟨s₃, hlen₃, hs₃, hspans₃⟩ := (Regex.matches_char _ _).1 h₃
    have hspans := hspans₁.append (hspans₂.append hspans₃)
    refine ⟨s₁ ++ (s₂ ++ s₃), ?_, Digits.append hs₁ (Digits.append hs₂ hs₃), hspans⟩
    rw [List.length_append, List.length_append]
    omega
  · rintro ⟨s, hlen, hs, hafter, hbefore⟩
    obtain ⟨a, b, c, rfl⟩ := List.length_eq_three.1 hlen
    simp only [List.forall_mem_cons] at hs
    refine ⟨_, ⟨a, b :: c :: y.after, hafter, hs.1, rfl⟩, _, ⟨b, c :: y.after, rfl, hs.2.1, rfl⟩, c, y.after, rfl,
      hs.2.2.1, ?_⟩
    cases y
    simp_all

/-- Behind digits only, the look ahead counts them. -/
theorem ahead_threes {x : Place} (hx : Digits x.after) :
    (Regex.run (.seq (.plus (.seq digit (.seq digit digit))) (.notAhead digit)) some x).isSome = true ↔
      x.after ≠ [] ∧ x.after.length % 3 = 0 := by
  rw [Regex.run_isSome]
  constructor
  · rintro ⟨y, ⟨z, hblocks, rfl, hnone⟩, -⟩
    obtain ⟨s, q, hq, hlen, -, hafter, -⟩ := (Regex.matches_plus_block matches_three).1 hblocks
    -- no digit is left behind the blocks
    have hend : y.after = [] := by
      cases hy : y.after with
      | nil => rfl
      | cons c rest =>
        have hc : c.isDigit = true := hx c (by rw [hafter, hy]; exact List.mem_append_right _ (List.mem_cons_self ..))
        exact absurd ⟨c, rest, hy, hc, rfl⟩ (hnone _)
    rw [hafter, hend, List.append_nil]
    exact ⟨List.ne_nil_of_length_pos (by omega), by omega⟩
  · rintro ⟨hne, hthree⟩
    obtain ⟨y, hy, hend⟩ := exists_spans (List.append_nil x.after).symm
    refine ⟨y, ⟨y, (Regex.matches_plus_block matches_three).2 ⟨x.after, x.after.length / 3, ?_, ?_, hx, hy⟩, rfl, ?_⟩,
      rfl⟩
    · have hpos : 0 < x.after.length := List.length_pos_iff.2 hne
      omega
    · omega
    · rintro z ⟨c, rest, hafter, -⟩
      rw [hend] at hafter
      cases hafter

theorem isWord_of_isDigit {c : Char} (h : c.isDigit = true) : isWord c = true := by
  rw [isWord, Char.isAlphanum, h, Bool.or_true, Bool.true_or]

/-- Where the pattern puts a comma. -/
theorem thousands_run {before rest : List Char} {c : Char} (hs : Digits (c :: rest))
    (hb : ∀ d ∈ before.head?, isWord d = true) :
    (thousands.run some ⟨before, c :: rest⟩).isSome = true ↔ before ≠ [] ∧ (c :: rest).length % 3 = 0 := by
  have hword : isWord c = true := isWord_of_isDigit hs.head
  have hboundary : Place.boundary ⟨before, c :: rest⟩ = false ↔ before ≠ [] := by
    cases before with
    | nil => simp [Place.boundary, hword]
    | cons d before => simp [Place.boundary, hword, hb d rfl]
  rw [thousands, Regex.run_isSome]
  have hahead := ahead_threes (x := ⟨before, c :: rest⟩) hs
  rw [Regex.run_isSome] at hahead
  constructor
  · rintro ⟨y, ⟨z, ⟨rfl, hnot⟩, rfl, hfound⟩, -⟩
    obtain ⟨z, hz⟩ := hfound
    exact ⟨hboundary.1 hnot, (hahead.1 ⟨z, hz, rfl⟩).2⟩
  · rintro ⟨hne, hthree⟩
    obtain ⟨z, hz, -⟩ := hahead.2 ⟨List.cons_ne_nil c rest, hthree⟩
    exact ⟨_, ⟨_, ⟨rfl, hboundary.2 hne⟩, rfl, z, hz⟩, rfl⟩

theorem replaceFrom_thousands (before : List Char) (hs : Digits s) (hb : ∀ d ∈ before.head?, isWord d = true) :
    thousands.replaceFrom [','] 0 before s = insertCommas (decide (before ≠ [])) s := by
  induction s generalizing before with
  | nil =>
    have hnone : ¬ (thousands.run some ⟨before, []⟩).isSome = true := by
      rw [Regex.run_isSome]
      rintro ⟨y, ⟨z, ⟨rfl, -⟩, -, w, hw⟩, -⟩
      exact ((ahead_threes (x := ⟨before, []⟩) hs).1 ((Regex.run_isSome _ _ _).2 ⟨w, hw, rfl⟩)).1 rfl
    rw [Regex.replaceFrom, if_neg fun h => hnone h.2]
    rfl
  | cons c rest ih =>
    have hword : ∀ d ∈ (c :: before).head?, isWord d = true := by
      rintro d ⟨⟩
      exact isWord_of_isDigit hs.head
    have hassertion : thousands.Assertion := ⟨trivial, trivial⟩
    rw [Regex.replaceFrom_cons hassertion, ih (c :: before) hs.tail hword, insertCommas]
    simp only [thousands_run hs hb, decide_eq_true_eq]
    rfl

theorem thousands_replaceAll (hs : Digits s) : thousands.replaceAll [','] s = insertCommas false s := by
  rw [Regex.replaceAll, replaceFrom_thousands [] hs (by simp)]
  rfl

/-! ## What the user typed -/

theorem toMinorUnits_decimal (h : DecimalText (trim input.toList) whole fraction) :
    toMinorUnits input code = if scaleOf code < fraction.length then none
      else some (String.ofList (stripZeros (whole ++ fraction.rightpad (scaleOf code) '0'))) := by
  obtain ⟨hwhole, hfraction⟩ := h.splitOn_point
  obtain ⟨hne, hdigits, hdigits'⟩ := h.digits
  have hminor := hdigits.filled hdigits' (scaleOf code)
  have hnonempty := (numeral_stripZeros (List.append_ne_nil_of_left_ne_nil hne _) hminor).1.nonempty
  rw [toMinorUnits, if_neg (not_not_intro (amount_test.2 ⟨whole, fraction, h⟩))]
  simp only [hwhole, hfraction, leadingZeros_replace hminor, if_neg hnonempty]

theorem toMinorUnits_other (h : ¬ ∃ whole fraction, DecimalText (trim input.toList) whole fraction) :
    toMinorUnits input code = none := by
  rw [toMinorUnits, if_pos (fun hamount => h (amount_test.1 hamount))]

/-- What `toMinorUnits` accepts, and what it makes of it. -/
theorem toMinorUnits_eq_some {text : String} : toMinorUnits input code = some text ↔
    ∃ whole fraction, DecimalText (trim input.toList) whole fraction ∧ fraction.length ≤ scaleOf code ∧
      text = String.ofList (stripZeros (whole ++ fraction.rightpad (scaleOf code) '0')) := by
  constructor
  · intro hsome
    by_cases hdecimal : ∃ whole fraction, DecimalText (trim input.toList) whole fraction
    · obtain ⟨whole, fraction, h⟩ := hdecimal
      rw [toMinorUnits_decimal h] at hsome
      by_cases hlong : scaleOf code < fraction.length
      · rw [if_pos hlong] at hsome
        cases hsome
      · rw [if_neg hlong] at hsome
        exact ⟨whole, fraction, h, Nat.le_of_not_lt hlong, (Option.some.inj hsome).symm⟩
    · rw [toMinorUnits_other hdecimal] at hsome
      cases hsome
  · rintro ⟨whole, fraction, h, hshort, rfl⟩
    rw [toMinorUnits_decimal h, if_neg (Nat.not_lt_of_le hshort)]

/-- The minor units are a numeral, the decimal shifted by the scale. -/
theorem toMinorUnits_value {text : String} (h : toMinorUnits input code = some text) :
    ∃ whole fraction, DecimalText (trim input.toList) whole fraction ∧ Numeral text.toList ∧
      (value text.toList : ℚ) = decimalValue whole fraction * 10 ^ scaleOf code := by
  obtain ⟨whole, fraction, hdecimal, hshort, rfl⟩ := toMinorUnits_eq_some.1 h
  obtain ⟨hne, hdigits, hdigits'⟩ := hdecimal.digits
  have hminor := hdigits.filled hdigits' (scaleOf code)
  obtain ⟨hnumeral, hvalue⟩ := numeral_stripZeros (List.append_ne_nil_of_left_ne_nil hne _) hminor
  rw [String.toList_ofList]
  refine ⟨whole, fraction, hdecimal, hnumeral, ?_⟩
  rw [hvalue, value_filled hshort]

/-! ## What the user is shown -/

/-- `n / 10 ^ k` in full: its sign, its whole part in groups, and `k` digits behind a point. -/
structure Formatted (text : List Char) (k : Nat) (n : Int) (groups : List (List Char)) (fraction : List Char) : Prop where
  text_eq : text = (if n < 0 then ['-'] else []) ++ [','].intercalate groups ++ if k = 0 then [] else '.' :: fraction
  grouped : Grouped groups
  whole : Numeral groups.flatten
  digits : Digits fraction
  length : fraction.length = k
  denotes : (if n < 0 then -1 else 1) * decimalValue groups.flatten fraction = (n : ℚ) / 10 ^ k

/-- The sign is taken off the text and the digits remain. -/
theorem signed_text {digits : List Char} (h : Digits digits) (n : Int) :
    ['-'].isPrefixOf ((if n < 0 then ['-'] else []) ++ digits) = decide (n < 0) ∧
      (if n < 0 then ((if n < 0 then ['-'] else []) ++ digits).drop 1 else (if n < 0 then ['-'] else []) ++ digits) = digits := by
  by_cases hn : n < 0
  · simp only [if_pos hn, decide_eq_true hn]
    exact ⟨rfl, rfl⟩
  · simp only [if_neg hn, decide_eq_false hn]
    refine ⟨?_, rfl⟩
    cases digits with
    | nil => rfl
    | cons c rest =>
      have hc : c.isDigit = true := h.head
      have hne : ('-' == c) = false := by
        rw [beq_eq_false_iff_ne]
        rintro rfl
        cases hc
      show ('-' == c && [].isPrefixOf rest) = false
      rw [hne, Bool.false_and]

/-- What the slices and the grouping make of the digits. -/
theorem formatMoney_digits {text : String} {digits : List Char} {n : Int} (h : Numeral digits)
    (ht : text.toList = (if n < 0 then ['-'] else []) ++ digits) :
    (formatMoney text code).toList = (if n < 0 then ['-'] else []) ++
      insertCommas false (wholeDigits (scaleOf code) digits) ++
        if scaleOf code = 0 then [] else '.' :: fractionDigits (scaleOf code) digits := by
  obtain ⟨hsign, hdigits⟩ := signed_text h.digits n
  rw [← ht] at hsign hdigits
  have hwhole := h.wholeDigits (k := scaleOf code)
  rw [wholeDigits, filled] at hwhole
  rw [wholeDigits, fractionDigits, filled]
  rw [formatMoney, String.toList_ofList]
  simp only [hsign, decide_eq_true_eq, hdigits]
  rw [if_neg hwhole.nonempty, thousands_replaceAll hwhole.digits]
  congr 1
  by_cases hscale : scaleOf code = 0
  · rw [if_pos hscale, if_neg (by omega)]
  · rw [if_neg hscale, if_pos (by omega)]

/-- `formatMoney` shows the integer, divided by the power of ten. -/
theorem formatMoney_formatted {text : String} {n : Int} (h : Writes text.toList n) :
    ∃ groups fraction, Formatted (formatMoney text code).toList (scaleOf code) n groups fraction := by
  obtain ⟨digits, hdigits, ht, hn⟩ := h.signed
  have hwhole := hdigits.wholeDigits (k := scaleOf code)
  obtain ⟨groups, hgrouped, hflatten, hcommas⟩ := insertCommas_grouped hwhole.nonempty
  refine ⟨groups, fractionDigits (scaleOf code) digits, ?_, hgrouped, ?_, hdigits.digits_fraction,
    length_fractionDigits _ _, ?_⟩
  · rw [formatMoney_digits hdigits ht, hcommas]
  · rw [hflatten]
    exact hwhole
  · rw [hflatten, decimalValue_filled, ← mul_div_assoc]
    congr 1
    exact_mod_cast hn

/-! ## What is shown can be typed -/

theorem isSpace_eq_false {c : Char} (h : c.isDigit = true ∨ c = '.') : isSpace c = false := by
  have hlow : 32 < c.toNat ∧ c.toNat < 128 := by
    rcases h with h | rfl
    · obtain ⟨hlow, hhigh⟩ := Char.isDigit_iff_toNat.1 h
      have hzero : '0'.toNat = 48 := rfl
      have hnine : '9'.toNat = 57 := rfl
      omega
    · decide
  rw [isSpace, decide_eq_false_iff_not]
  rintro (hmem | ⟨hwide, -⟩)
  · simp only [List.mem_cons, List.not_mem_nil, or_false] at hmem
    rcases hmem with rfl | rfl | rfl | rfl | rfl | rfl | rfl | rfl | rfl | rfl | rfl | rfl | rfl | rfl <;>
      exact absurd hlow (by decide)
  · have hnat : '\u2000'.toNat ≤ c.toNat := hwide
    have hvalue : '\u2000'.toNat = 8192 := rfl
    omega

theorem trim_eq_self (h : ∀ c ∈ t, isSpace c = false) : trim t = t := by
  have hfront : t.dropWhile isSpace = t := by
    rw [List.dropWhile_eq_self_iff]
    intro hl
    rw [h _ (List.getElem_mem hl)]
    exact Bool.false_ne_true
  rw [trim, hfront, List.rdropWhile_eq_self_iff]
  intro hl
  rw [h _ (List.getLast_mem hl)]
  exact Bool.false_ne_true

theorem trim_decimal (h : DecimalText t whole fraction) : trim t = t := by
  apply trim_eq_self
  intro c hc
  apply isSpace_eq_false
  cases h with
  | whole _ hdigits => exact .inl (hdigits c hc)
  | point _ hdigits _ hdigits' =>
    rcases List.mem_append.1 hc with hc | hc
    · exact .inl (hdigits c hc)
    · rcases List.mem_cons.1 hc with rfl | hc
      · exact .inr rfl
      · exact .inl (hdigits' c hc)

namespace Formatted

variable {k : Nat} {n : Int} {groups : List (List Char)}

/-- Without its commas a formatted amount is a decimal. -/
theorem withoutCommas (h : Formatted t k n groups fraction) (hn : 0 ≤ n) :
    DecimalText (t.filter (· ≠ ',')) groups.flatten fraction := by
  have hgroups : ∀ g ∈ groups, ',' ∉ g := by
    intro g hg
    apply Digits.comma_notMem
    intro c hc
    exact h.whole.digits c (List.mem_flatten.2 ⟨g, hg, hc⟩)
  rw [h.text_eq, if_neg (by omega), List.nil_append, List.filter_append, filter_intercalate hgroups]
  by_cases hk : k = 0
  · have hfraction : fraction = [] := List.eq_nil_of_length_eq_zero (h.length.trans hk)
    rw [if_pos hk, hfraction, List.filter_nil, List.append_nil]
    exact .whole h.whole.nonempty h.whole.digits
  · have hfraction : fraction ≠ [] := List.ne_nil_of_length_pos (by rw [h.length]; omega)
    have hpoint : ('.' :: fraction).filter (· ≠ ',') = '.' :: fraction := by
      rw [List.filter_cons_of_pos (by decide)]
      congr 1
      refine List.filter_eq_self.2 fun c hc => ?_
      rw [decide_eq_true_eq]
      rintro rfl
      exact h.digits.comma_notMem hc
    rw [if_neg hk, hpoint]
    exact .point h.whole.nonempty h.whole.digits hfraction h.digits

end Formatted

/-- `toMinorUnits` takes back what `formatMoney` shows, the commas apart. -/
theorem toMinorUnits_formatMoney {text : String} {n : Int} (h : Writes text.toList n) (hn : 0 ≤ n) :
    toMinorUnits (String.ofList ((formatMoney text code).toList.filter (· ≠ ','))) code = some text := by
  obtain ⟨groups, fraction, hformatted⟩ :
    ∃ groups fraction, Formatted (formatMoney text code).toList (scaleOf code) n groups fraction := formatMoney_formatted h
  obtain ⟨digits, hdigits, ht, hvalue⟩ := h.signed
  rw [if_neg (by omega), List.nil_append] at ht
  rw [if_neg (by omega), one_mul, ← ht] at hvalue
  have hdecimal := hformatted.withoutCommas hn
  generalize hshown : String.ofList ((formatMoney text code).toList.filter (· ≠ ',')) = shown
  have htrim : trim shown.toList = (formatMoney text code).toList.filter (· ≠ ',') := by
    rw [← hshown, String.toList_ofList, trim_decimal hdecimal]
  rw [← htrim] at hdecimal
  have hminor := toMinorUnits_eq_some.2 ⟨groups.flatten, fraction, hdecimal, hformatted.length.le, rfl⟩
  obtain ⟨whole', fraction', hdecimal', hnumeral, hexact⟩ := toMinorUnits_value hminor
  obtain ⟨rfl, rfl⟩ := hdecimal.unique hdecimal'
  rw [hminor]
  -- both texts are the numeral of one number
  have hdenotes := hformatted.denotes
  rw [if_neg (by omega), one_mul] at hdenotes
  rw [hdenotes, div_mul_cancel₀ _ (pow_ne_zero _ (by norm_num)), ← hvalue] at hexact
  have hsame := hnumeral.unique (ht ▸ hdigits) (by exact_mod_cast hexact)
  rw [← String.toList_inj.1 hsame]

theorem scaleOf_mem : ∀ currency ∈ currencies, scaleOf currency.code = currency.scale := by
  decide

/-- Text to money and back is exact in every currency. -/
theorem moneyText_exact {currency : CurrencyDef} (h : currency ∈ currencies) :
    (∀ input, (toMinorUnits input currency.code).isSome = true ↔
      ∃ whole fraction, DecimalText (trim input.toList) whole fraction ∧ fraction.length ≤ currency.scale) ∧
    (∀ input minor, toMinorUnits input currency.code = some minor →
      ∃ whole fraction, DecimalText (trim input.toList) whole fraction ∧ Numeral minor.toList ∧
        (value minor.toList : ℚ) = decimalValue whole fraction * 10 ^ currency.scale) ∧
    (∀ (text : String) n, Writes text.toList n →
      ∃ groups fraction, Formatted (formatMoney text currency.code).toList currency.scale n groups fraction) ∧
    ∀ (text : String) n, Writes text.toList n → 0 ≤ n →
      toMinorUnits (String.ofList ((formatMoney text currency.code).toList.filter (· ≠ ','))) currency.code = some text := by
  rw [← scaleOf_mem currency h]
  refine ⟨?_, ?_, ?_, ?_⟩
  · intro input
    rw [Option.isSome_iff_exists]
    constructor
    · rintro ⟨minor, hminor⟩
      obtain ⟨whole, fraction, hdecimal, hshort, -⟩ := toMinorUnits_eq_some.1 hminor
      exact ⟨whole, fraction, hdecimal, hshort⟩
    · rintro ⟨whole, fraction, hdecimal, hshort⟩
      exact ⟨_, toMinorUnits_eq_some.2 ⟨whole, fraction, hdecimal, hshort, rfl⟩⟩
  · intro input minor hminor
    exact toMinorUnits_value hminor
  · intro text n hwrites
    exact formatMoney_formatted hwrites
  · intro text n hwrites hn
    exact toMinorUnits_formatMoney hwrites hn

/-- A balance in dollars is shown, and one is shown and typed again. -/
theorem moneyText_exact_dollars :
    (∃ groups fraction, Formatted (formatMoney "-1234567" "USD").toList 2 (-1234567) groups fraction) ∧
      toMinorUnits (String.ofList ((formatMoney "1234567" "USD").toList.filter (· ≠ ','))) "USD" = some "1234567" := by
  have hdigits : Numeral "1234567".toList := ⟨by decide, by decide, by decide⟩
  have hdollars : ⟨"USD", 2⟩ ∈ currencies := by decide
  have hexact := moneyText_exact hdollars
  have hpos : Writes "1234567".toList 1234567 := .nonneg hdigits
  have hneg : Writes "-1234567".toList (-1234567) := .neg hdigits (by decide)
  exact ⟨hexact.2.2.1 _ _ hneg, hexact.2.2.2 _ _ hpos (by omega)⟩

end MiniLedger.Dashboard
