import Mathlib.Data.List.Basic
import Mathlib.Data.String.Basic

/-!
# Identifiers as text and as uuid values

A uuid column compares by value and prints in one spelling, whatever the spelling of the
text it is compared with; zod's `.uuid()` admits the printed form with digits of both cases,
and `AccountId.value` keeps the text it was given. `Uuid.parse?` is the cast Postgres applies
to a text parameter: 16 bytes of two hex digits each, in braces or not, with a hyphen or none
behind every second byte but the last.
-/

namespace MiniLedger

def isLowerHex (c : Char) : Bool := c.isDigit || (decide ('a' ≤ c) && decide (c ≤ 'f'))

def isHex (c : Char) : Bool := isLowerHex c || (decide ('A' ≤ c) && decide (c ≤ 'F'))

/-- Groups of 8, 4, 4, 4 and 12 digits joined by hyphens. -/
def uuidPattern (digit : Char → Bool) (text : List Char) : Bool :=
  text.length == 36 && text.zipIdx.all fun (c, i) =>
    if i = 8 ∨ i = 13 ∨ i = 18 ∨ i = 23 then c == '-' else digit c

/-- The check of `z.string().uuid()`. -/
def isUuid (text : String) : Bool := uuidPattern isHex text.toList

/-- The text with its letters in lower case. -/
def lowerCase (text : String) : String := String.ofList (text.toList.map Char.toLower)

/-! ## Digits -/

theorem isLowerHex_iff {c : Char} :
    isLowerHex c = true ↔ (48 ≤ c.toNat ∧ c.toNat ≤ 57) ∨ (97 ≤ c.toNat ∧ c.toNat ≤ 102) := by
  simp [isLowerHex, Char.isDigit, Char.le_def, UInt32.le_iff_toNat_le]

theorem isHex_iff {c : Char} :
    isHex c = true ↔ isLowerHex c = true ∨ (65 ≤ c.toNat ∧ c.toNat ≤ 70) := by
  simp [isHex, Char.le_def, UInt32.le_iff_toNat_le]

theorem toLower_of_isLowerHex {c : Char} (h : isLowerHex c = true) : c.toLower = c := by
  rw [isLowerHex_iff] at h
  refine dif_neg ?_
  rintro ⟨hlo, hhi⟩
  have hlo : 65 ≤ c.toNat := hlo
  have hhi : c.toNat ≤ 90 := hhi
  omega

theorem isLowerHex_toLower {c : Char} (h : isHex c = true) : isLowerHex c.toLower = true := by
  rcases isHex_iff.1 h with h | ⟨hlo, hhi⟩
  · rw [toLower_of_isLowerHex h]; exact h
  · -- six letters
    have cases : ∀ n : Nat, n < 71 → 65 ≤ n → isLowerHex (Char.ofNat n).toLower = true := by decide
    have := cases c.toNat (by omega) hlo
    rwa [Char.ofNat_toNat] at this

/-- A character that is no digit is none of the digits. -/
theorem ne_of_isHex {c d : Char} (h : isHex c = true) (hd : isHex d = false) : c ≠ d := by
  rintro rfl
  rw [h] at hd
  cases hd

/-! ## The printed form -/

/-- 32 digits as a uuid is printed. -/
def hyphenated (digits : List Char) : List Char :=
  digits.take 8 ++ '-' :: ((digits.drop 8).take 4 ++ '-' :: ((digits.drop 12).take 4 ++ '-' ::
    ((digits.drop 16).take 4 ++ '-' :: digits.drop 20)))

theorem hyphenated_groups {a b c d e : List Char} (ha : a.length = 8) (hb : b.length = 4) (hc : c.length = 4)
    (hd : d.length = 4) :
    hyphenated (a ++ (b ++ (c ++ (d ++ e)))) = a ++ '-' :: (b ++ '-' :: (c ++ '-' :: (d ++ '-' :: e))) := by
  simp (disch := omega) [hyphenated, List.drop_append, ha, hb, hc, List.drop_of_length_le]

section pattern

variable {digit : Char → Bool} {group rest : List Char} {start : Nat}

/-- The test of `uuidPattern` on the character at place `i`. -/
def fitsAt (digit : Char → Bool) (entry : Char × Nat) : Bool :=
  if entry.2 = 8 ∨ entry.2 = 13 ∨ entry.2 = 18 ∨ entry.2 = 23 then entry.1 == '-' else digit entry.1

/-- A group from `start` on, with no place of a hyphen in it. -/
theorem all_fitsAt_append (hnone : ∀ i ∈ [8, 13, 18, 23], i < start ∨ start + group.length ≤ i) :
    ((group ++ rest).zipIdx start).all (fitsAt digit) = true ↔
      (∀ c ∈ group, digit c = true) ∧ (rest.zipIdx (start + group.length)).all (fitsAt digit) = true := by
  induction group generalizing start with
  | nil => simp
  | cons c group ih =>
    simp only [List.forall_mem_cons, List.length_cons, List.not_mem_nil, false_implies, implies_true, and_true]
      at hnone ih ⊢
    have hstart : ¬ (start = 8 ∨ start = 13 ∨ start = 18 ∨ start = 23) := by omega
    rw [List.cons_append, List.zipIdx_cons, List.all_cons, Bool.and_eq_true, ih (by omega), fitsAt, if_neg hstart,
      and_assoc, show start + 1 + group.length = start + (group.length + 1) by omega]

theorem all_fitsAt_hyphen {c : Char} (hstart : start ∈ [8, 13, 18, 23]) :
    ((c :: rest).zipIdx start).all (fitsAt digit) = true ↔ c = '-' ∧ (rest.zipIdx (start + 1)).all (fitsAt digit) = true := by
  have hstart : start = 8 ∨ start = 13 ∨ start = 18 ∨ start = 23 := by simpa using hstart
  rw [List.zipIdx_cons, List.all_cons, Bool.and_eq_true, fitsAt, if_pos hstart, beq_iff_eq]

/-- Five groups joined by single characters, of the lengths of a uuid. -/
theorem uuidPattern_groups {a b c d e : List Char} {w x y z : Char} (ha : a.length = 8) (hb : b.length = 4)
    (hc : c.length = 4) (hd : d.length = 4) (he : e.length = 12) :
    uuidPattern digit (a ++ w :: (b ++ x :: (c ++ y :: (d ++ z :: e)))) = true ↔
      (w = '-' ∧ x = '-' ∧ y = '-' ∧ z = '-') ∧ ∀ k ∈ a ++ (b ++ (c ++ (d ++ e))), digit k = true := by
  have hlast : (e.zipIdx 24).all (fitsAt digit) = true ↔ ∀ k ∈ e, digit k = true := by
    rw [← List.append_nil e, all_fitsAt_append (by simp [he])]
    simp
  have hlen : (a ++ w :: (b ++ x :: (c ++ y :: (d ++ z :: e)))).length = 36 := by simp [ha, hb, hc, hd, he]
  show (_ && (List.zipIdx _ 0).all (fitsAt digit)) = true ↔ _
  rw [hlen, Bool.and_eq_true, all_fitsAt_append (by simp [ha]), ha, all_fitsAt_hyphen (by simp),
    all_fitsAt_append (by simp [hb]), hb, all_fitsAt_hyphen (by simp), all_fitsAt_append (by simp [hc]), hc,
    all_fitsAt_hyphen (by simp), all_fitsAt_append (by simp [hd]), hd, all_fitsAt_hyphen (by simp), hlast]
  simp only [List.forall_mem_append, beq_self_eq_true, true_and]
  tauto

theorem exists_split {text : List Char} {n : Nat} (h : n < text.length) :
    ∃ group c rest, text = group ++ c :: rest ∧ group.length = n ∧ rest.length + (n + 1) = text.length :=
  ⟨text.take n, text[n], text.drop (n + 1), by rw [← List.drop_eq_getElem_cons h, List.take_append_drop],
    by rw [List.length_take]; omega, by rw [List.length_drop]; omega⟩

/-- A text of the pattern is 32 digits, printed. -/
theorem uuidPattern_iff {text : List Char} :
    uuidPattern digit text = true ↔
      ∃ digits : List Char, text = hyphenated digits ∧ digits.length = 32 ∧ ∀ c ∈ digits, digit c = true := by
  constructor
  · intro h
    have hlen : text.length = 36 := by
      rw [uuidPattern, Bool.and_eq_true, beq_iff_eq] at h
      exact h.1
    obtain ⟨a, w, text, rfl, ha, h₁⟩ := @exists_split text 8 (by omega)
    obtain ⟨b, x, text, rfl, hb, h₂⟩ := @exists_split text 4 (by omega)
    obtain ⟨c, y, text, rfl, hc, h₃⟩ := @exists_split text 4 (by omega)
    obtain ⟨d, z, e, rfl, hd, h₄⟩ := @exists_split text 4 (by omega)
    have he : e.length = 12 := by omega
    obtain ⟨⟨rfl, rfl, rfl, rfl⟩, hdigits⟩ := (uuidPattern_groups ha hb hc hd he).1 h
    exact ⟨_, (hyphenated_groups ha hb hc hd).symm, by simp [ha, hb, hc, hd, he], hdigits⟩
  · rintro ⟨digits, rfl, hlen, hdigits⟩
    refine (uuidPattern_groups ?_ ?_ ?_ ?_ ?_).2 ⟨⟨rfl, rfl, rfl, rfl⟩, fun c hc => hdigits c ?_⟩
    iterate 5 simp [hlen]
    rw [← List.drop_drop (i := 4) (j := 16), ← List.drop_drop (i := 4) (j := 12), ← List.drop_drop (i := 4) (j := 8),
      List.take_append_drop, List.take_append_drop, List.take_append_drop, List.take_append_drop] at hc
    exact hc

theorem uuidPattern_chars {text : List Char} (h : uuidPattern digit text = true) :
    ∀ c ∈ text, c = '-' ∨ digit c = true := by
  obtain ⟨digits, rfl, -, hdigits⟩ := uuidPattern_iff.1 h
  intro c hc
  simp only [hyphenated, List.mem_append, List.mem_cons] at hc
  rcases hc with hc | rfl | hc | rfl | hc | rfl | hc | rfl | hc
  · exact .inr (hdigits c (List.mem_of_mem_take hc))
  · exact .inl rfl
  · exact .inr (hdigits c (List.mem_of_mem_drop (List.mem_of_mem_take hc)))
  · exact .inl rfl
  · exact .inr (hdigits c (List.mem_of_mem_drop (List.mem_of_mem_take hc)))
  · exact .inl rfl
  · exact .inr (hdigits c (List.mem_of_mem_drop (List.mem_of_mem_take hc)))
  · exact .inl rfl
  · exact .inr (hdigits c (List.mem_of_mem_drop hc))

theorem map_hyphenated (digits : List Char) : (hyphenated digits).map Char.toLower = hyphenated (digits.map Char.toLower) := by
  simp [hyphenated, List.map_take, List.map_drop, (by decide : Char.toLower '-' = '-')]

end pattern

/-! ## The cast -/

/-- The digits of the next `n` bytes in lower case, and the text behind them. A hyphen behind
a byte is passed over where an even number of bytes, and not none, is still to come. -/
def uuidBytes : Nat → List Char → Option (List Char × List Char)
  | 0, rest => some ([], rest)
  | n + 1, high :: low :: rest =>
    if isHex high && isHex low then
      (uuidBytes n (if rest.head? = some '-' ∧ n % 2 = 0 ∧ n ≠ 0 then rest.tail else rest)).map fun read =>
        (high.toLower :: low.toLower :: read.1, read.2)
    else none
  | _ + 1, _ => none

/-- The 32 digits of the uuid a text stands for. A brace before them asks for one behind. -/
def uuidDigits (text : List Char) : Option (List Char) :=
  match uuidBytes 16 (if text.head? = some '{' then text.tail else text) with
  | some (digits, rest) => if rest = (if text.head? = some '{' then ['}'] else []) then some digits else none
  | none => none

theorem uuidBytes_some {n : Nat} {text digits rest : List Char} (h : uuidBytes n text = some (digits, rest)) :
    digits.length = 2 * n ∧ (∀ c ∈ digits, isLowerHex c = true) ∧
      ∀ c ∈ text, c = '-' ∨ isHex c = true ∨ c ∈ rest := by
  induction n generalizing text digits with
  | zero =>
    obtain ⟨rfl, rfl⟩ : [] = digits ∧ text = rest := by simpa [uuidBytes] using h
    exact ⟨rfl, by simp, fun c hc => .inr (.inr hc)⟩
  | succ n ih =>
    match text with
    | [] | [_] => simp [uuidBytes] at h
    | high :: low :: behind =>
      rw [uuidBytes] at h
      split at h
      · rename_i hhex
        obtain ⟨hhigh, hlow⟩ := Bool.and_eq_true_iff.1 hhex
        obtain ⟨read, hread, heq⟩ := Option.map_eq_some_iff.1 h
        obtain ⟨rfl, rfl⟩ := Prod.mk.inj heq
        obtain ⟨hlen, hdigits, hchars⟩ := ih hread
        refine ⟨by simp [hlen]; omega, ?_, ?_⟩
        · rw [List.forall_mem_cons, List.forall_mem_cons]
          exact ⟨isLowerHex_toLower hhigh, isLowerHex_toLower hlow, hdigits⟩
        · rw [List.forall_mem_cons, List.forall_mem_cons]
          refine ⟨.inr (.inl hhigh), .inr (.inl hlow), fun c hc => ?_⟩
          split at hchars
          · rename_i hskip
            cases behind with
            | nil => cases hc
            | cons d behind =>
              obtain rfl : d = '-' := by simpa using hskip.1
              rcases List.mem_cons.1 hc with rfl | hc
              · exact .inl rfl
              · exact hchars c hc
          · exact hchars c hc
      · cases h

theorem uuidDigits_some {text digits : List Char} (h : uuidDigits text = some digits) :
    digits.length = 32 ∧ (∀ c ∈ digits, isLowerHex c = true) ∧
      ∀ c ∈ text, c = '-' ∨ c = '{' ∨ c = '}' ∨ isHex c = true := by
  unfold uuidDigits at h
  cases hread : uuidBytes 16 (if text.head? = some '{' then text.tail else text) with
  | none => rw [hread] at h; cases h
  | some read =>
    obtain ⟨digits', rest⟩ := read
    rw [hread] at h
    simp only [Option.ite_none_right_eq_some, Option.some.injEq] at h
    obtain ⟨hrest, rfl⟩ := h
    obtain ⟨hlen, hdigits, hchars⟩ := uuidBytes_some hread
    refine ⟨hlen, hdigits, fun c hc => ?_⟩
    have hbrace : c ∈ rest → c = '}' := by
      intro hmem
      rw [hrest] at hmem
      split at hmem
      · exact List.mem_singleton.1 hmem
      · cases hmem
    have hin : c = '{' ∨ c ∈ (if text.head? = some '{' then text.tail else text) := by
      split
      · rename_i hopen
        cases text with
        | nil => cases hc
        | cons d text =>
          obtain rfl : d = '{' := by simpa using hopen
          exact List.mem_cons.1 hc
      · exact .inr hc
    rcases hin with rfl | hin
    · exact .inr (.inl rfl)
    · rcases hchars c hin with rfl | hhex | hmem
      · exact .inl rfl
      · exact .inr (.inr (.inr hhex))
      · exact .inr (.inr (.inl (hbrace hmem)))

theorem uuidPattern_hyphenated {text digits : List Char} (h : uuidDigits text = some digits) :
    uuidPattern isLowerHex (hyphenated digits) = true :=
  uuidPattern_iff.2 ⟨digits, rfl, (uuidDigits_some h).1, (uuidDigits_some h).2.1⟩

/-- A value of a uuid column, with the text it prints as. -/
structure Uuid where
  text : String
  canonical : uuidPattern isLowerHex text.toList = true
  deriving DecidableEq

/-- The cast of a text parameter to uuid. -/
def Uuid.parse? (text : String) : Option Uuid :=
  (uuidDigits text.toList).pmap (fun digits h => ⟨String.ofList (hyphenated digits), by rw [String.toList_ofList]; exact h⟩)
    fun _ h => uuidPattern_hyphenated h

@[ext] theorem Uuid.ext {u v : Uuid} (h : u.text = v.text) : u = v := by
  cases u; cases v; simp_all

/-- A group of digits, read two at a time. -/
theorem uuidBytes_group {m k n : Nat} {group rest : List Char} (hm : m = k + 1 + n) (hlen : group.length = 2 * (k + 1))
    (hgroup : ∀ c ∈ group, isHex c = true) :
    uuidBytes m (group ++ rest) =
      (uuidBytes n (if rest.head? = some '-' ∧ n % 2 = 0 ∧ n ≠ 0 then rest.tail else rest)).map fun read =>
        (group.map Char.toLower ++ read.1, read.2) := by
  induction k generalizing group m with
  | zero =>
    match group with
    | [high, low] =>
      have hhex : (isHex high && isHex low) = true := by simpa using hgroup
      rw [hm, show 0 + 1 + n = n + 1 by omega, List.cons_append, List.cons_append, List.nil_append, uuidBytes, if_pos hhex]
      rfl
  | succ k ih =>
    match group with
    | high :: low :: next :: group =>
      simp only [List.length_cons, List.forall_mem_cons] at hlen hgroup
      obtain ⟨hhigh, hlow, hnext, hgroup⟩ := hgroup
      -- a digit comes next, so nothing is passed over
      have hno : ¬ ((next :: group ++ rest).head? = some '-' ∧ (k + 1 + n) % 2 = 0 ∧ k + 1 + n ≠ 0) := by
        rintro ⟨hhyphen, -⟩
        exact ne_of_isHex (d := '-') hnext (by decide) (by simpa using hhyphen)
      have hread := @ih (k + 1 + n) (next :: group) rfl (by simp; omega) (List.forall_mem_cons.2 ⟨hnext, hgroup⟩)
      rw [hm, show k + 1 + 1 + n = (k + 1 + n) + 1 by omega, List.cons_append, List.cons_append, uuidBytes,
        if_pos (by rw [hhigh, hlow]; rfl), if_neg hno, hread, Option.map_map]
      rfl

theorem uuidBytes_hyphen {m k n : Nat} {group rest : List Char} (hm : m = k + 1 + n) (hn : n % 2 = 0 ∧ n ≠ 0)
    (hlen : group.length = 2 * (k + 1)) (hgroup : ∀ c ∈ group, isHex c = true) :
    uuidBytes m (group ++ '-' :: rest) =
      (uuidBytes n rest).map fun read => (group.map Char.toLower ++ read.1, read.2) := by
  rw [uuidBytes_group hm hlen hgroup, if_pos ⟨rfl, hn⟩, List.tail_cons]

/-- The printed form is read with its hyphens passed over. -/
theorem uuidDigits_hyphenated {digits : List Char} (hlen : digits.length = 32) (hdigits : ∀ c ∈ digits, isHex c = true) :
    uuidDigits (hyphenated digits) = some (digits.map Char.toLower) := by
  have hlast : uuidBytes 6 (digits.drop 20) = some ((digits.drop 20).map Char.toLower, []) := by
    rw [← List.append_nil (digits.drop 20), uuidBytes_group (k := 5) (n := 0) rfl (by simp [hlen])
      fun c hc => hdigits c (List.mem_of_mem_drop hc)]
    simp [uuidBytes]
  have hgroup : ∀ i n, ∀ c ∈ (digits.drop i).take n, isHex c = true := fun i n c hc =>
    hdigits c (List.mem_of_mem_drop (List.mem_of_mem_take hc))
  have hfirst : ∀ c ∈ digits.take 8, isHex c = true := hgroup 0 8
  have hread : uuidBytes 16 (hyphenated digits) = some (digits.map Char.toLower, []) := by
    rw [hyphenated, uuidBytes_hyphen (k := 3) (n := 12) rfl (by decide) (by simp [hlen]) hfirst,
      uuidBytes_hyphen (k := 1) (n := 10) rfl (by decide) (by simp [hlen]) (hgroup 8 4),
      uuidBytes_hyphen (k := 1) (n := 8) rfl (by decide) (by simp [hlen]) (hgroup 12 4),
      uuidBytes_hyphen (k := 1) (n := 6) rfl (by decide) (by simp [hlen]) (hgroup 16 4), hlast]
    simp only [Option.map_some, ← List.map_append]
    rw [← List.drop_drop (i := 4) (j := 16), ← List.drop_drop (i := 4) (j := 12), ← List.drop_drop (i := 4) (j := 8),
      List.take_append_drop, List.take_append_drop, List.take_append_drop, List.take_append_drop]
  have hopen : (hyphenated digits).head? ≠ some '{' := by
    cases digits with
    | nil => cases hlen
    | cons d digits =>
      intro heq
      exact ne_of_isHex (d := '{') (hdigits d (List.mem_cons_self ..)) (by decide) (by simpa [hyphenated] using heq)
  rw [uuidDigits, if_neg hopen, hread]
  exact if_pos (if_neg hopen).symm

/-! ## Spellings -/

/-- A text as the uuid it stands for is printed; a text that is none, as it is. -/
def printed (text : String) : String := ((Uuid.parse? text).map Uuid.text).getD text

theorem Uuid.parse?_eq_some {text : String} {u : Uuid} (h : Uuid.parse? text = some u) : u.text = printed text := by
  rw [printed, h]; rfl

/-- All spellings of one uuid are printed alike. -/
theorem Uuid.parse?_injective {s t : String} {u : Uuid} (hs : Uuid.parse? s = some u) (ht : Uuid.parse? t = some u) :
    printed s = printed t := by
  rw [← Uuid.parse?_eq_some hs, ← Uuid.parse?_eq_some ht]

/-- The digits of a text zod admits, in lower case, with the hyphens where they are. -/
theorem parse?_eq_lowerCase {text : String} (h : isUuid text = true) :
    ∃ u, Uuid.parse? text = some u ∧ u.text = lowerCase text := by
  obtain ⟨digits, heq, hlen, hdigits⟩ := uuidPattern_iff.1 h
  have hread : uuidDigits text.toList = some (digits.map Char.toLower) := heq ▸ uuidDigits_hyphenated hlen hdigits
  refine ⟨_, Option.pmap_eq_some_iff.2 ⟨_, uuidPattern_hyphenated hread, hread, rfl⟩, ?_⟩
  show String.ofList (hyphenated _) = _
  rw [lowerCase, heq, map_hyphenated]

/-- Every text zod admits is one Postgres can cast. -/
theorem parse?_of_isUuid {text : String} (h : isUuid text = true) : ∃ u, Uuid.parse? text = some u :=
  (parse?_eq_lowerCase h).imp fun _ h => h.1

/-- Of a text zod admits only the case of its letters is lost. -/
theorem printed_of_isUuid {text : String} (h : isUuid text = true) : printed text = lowerCase text := by
  obtain ⟨u, hu, htext⟩ := parse?_eq_lowerCase h
  rw [← Uuid.parse?_eq_some hu, htext]

theorem Uuid.isUuid_text (u : Uuid) : isUuid u.text = true := by
  obtain ⟨digits, heq, hlen, hdigits⟩ := uuidPattern_iff.1 u.canonical
  exact uuidPattern_iff.2 ⟨digits, heq, hlen, fun c hc => isHex_iff.2 (.inl (hdigits c hc))⟩

theorem Uuid.lowerCase_text (u : Uuid) : lowerCase u.text = u.text := by
  obtain ⟨digits, heq, hlen, hdigits⟩ := uuidPattern_iff.1 u.canonical
  have hsame : digits.map Char.toLower = digits :=
    (List.map_congr_left fun c hc => toLower_of_isLowerHex (hdigits c hc)).trans (List.map_id _)
  rw [lowerCase, heq, map_hyphenated, hsame, ← heq, String.ofList_toList]

/-- A uuid printed and cast again is the same uuid. -/
@[simp] theorem Uuid.parse?_text (u : Uuid) : Uuid.parse? u.text = some u := by
  obtain ⟨v, hv, htext⟩ := parse?_eq_lowerCase u.isUuid_text
  rw [hv, Uuid.ext (htext.trans u.lowerCase_text)]

@[simp] theorem Uuid.printed_text (u : Uuid) : printed u.text = u.text := by
  rw [printed, u.parse?_text]; rfl

/-- Printing a text keeps the uuid it stands for. -/
theorem Uuid.parse?_printed (text : String) : Uuid.parse? (printed text) = Uuid.parse? text := by
  cases h : Uuid.parse? text with
  | none => rw [printed, h]; exact h
  | some u => rw [← Uuid.parse?_eq_some h, u.parse?_text]

/-- Texts printed alike stand for one uuid, or for none. -/
theorem Uuid.parse?_congr {s t : String} (h : printed s = printed t) : Uuid.parse? s = Uuid.parse? t := by
  rw [← Uuid.parse?_printed s, h, Uuid.parse?_printed]

example : printed "{A0EEBC999C0B4EF8BB6D6BB9BD380A11}" = "a0eebc99-9c0b-4ef8-bb6d-6bb9bd380a11" ∧
    printed "a0ee-bc99-9c0b-4ef8-bb6d-6bb9-bd38-0a11" = "a0eebc99-9c0b-4ef8-bb6d-6bb9bd380a11" := by decide

/-- No text of a uuid has a character outside the form, U+0000 among them. -/
theorem Uuid.parse?_chars {text : String} {u : Uuid} (h : Uuid.parse? text = some u) :
    ∀ c ∈ text.toList, c = '-' ∨ c = '{' ∨ c = '}' ∨ isHex c = true := by
  obtain ⟨digits, -, hread, -⟩ := Option.pmap_eq_some_iff.1 h
  exact (uuidDigits_some hread).2.2

/-- A text spelled as the database prints it. -/
def Canonical (text : String) : Prop := printed text = text

instance (text : String) : Decidable (Canonical text) := inferInstanceAs (Decidable (_ = _))

theorem Uuid.canonical_text (u : Uuid) : Canonical u.text := u.printed_text

theorem Uuid.text_of_canonical {text : String} {u : Uuid} (hc : Canonical text) (h : Uuid.parse? text = some u) :
    u.text = text := (Uuid.parse?_eq_some h).trans hc

end MiniLedger
