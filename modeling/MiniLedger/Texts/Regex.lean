import Mathlib.Data.List.Basic
import Mathlib.Logic.Relation

/-!
# Regular expressions with assertions

The matcher is the backtracking one of ECMAScript: a pattern runs at a place of the text with
a continuation for what follows it, quantifiers are greedy, and a further iteration that
consumes nothing is refused. `Matches` says, with no order of trials, which places a pattern
leads to; the matcher finds one just if there is one that suits what follows (`run_isSome`).
-/

namespace Texts

/-- A place in a text: what stands before it, read backwards, and what stands after it. -/
structure Place where
  before : List Char
  after : List Char
  deriving DecidableEq

inductive Regex where
  /-- one character of a class -/
  | char (p : Char → Bool)
  | seq (r s : Regex)
  | optional (r : Regex)
  | plus (r : Regex)
  | start
  | stop
  /-- neither at the beginning nor at the end of a word -/
  | notBoundary
  | ahead (r : Regex)
  | notAhead (r : Regex)

def isWord (c : Char) : Bool := c.isAlphanum || c == '_'

def Place.boundary (x : Place) : Bool := x.before.head?.any isWord != x.after.head?.any isWord

/-! ## The matcher -/

/-- What is to match after a pattern, and where it ends. -/
abbrev Cont := Place → Option Place

/-- As many iterations as suit the continuation. -/
def iterate (m : Cont → Cont) (k : Cont) : Nat → Cont
  | 0, x => k x
  | n + 1, x => (m (fun y => if y.after.length < x.after.length then iterate m k n y else none) x).or (k x)

/-- No more iterations make progress than there are characters left. -/
def star (m : Cont → Cont) (k : Cont) (x : Place) : Option Place := iterate m k x.after.length x

namespace Regex

def run : Regex → Cont → Cont
  | char p, k, x =>
    match x.after with
    | [] => none
    | c :: rest => if p c then k ⟨c :: x.before, rest⟩ else none
  | seq r s, k, x => run r (run s k) x
  | optional r, k, x => (run r (fun y => if y.after.length < x.after.length then k y else none) x).or (k x)
  | plus r, k, x => run r (star (run r) k) x
  | start, k, x => if x.before = [] then k x else none
  | stop, k, x => if x.after = [] then k x else none
  | notBoundary, k, x => if x.boundary = false then k x else none
  | ahead r, k, x => if (run r some x).isSome = true then k x else none
  | notAhead r, k, x => if (run r some x).isSome = false then k x else none

/-- The first match: where it begins and where it ends. -/
def findFrom (r : Regex) (before : List Char) : List Char → Option (Place × Place)
  | [] => (r.run some ⟨before, []⟩).map fun y => (⟨before, []⟩, y)
  | c :: rest =>
    match r.run some ⟨before, c :: rest⟩ with
    | some y => some (⟨before, c :: rest⟩, y)
    | none => findFrom r (c :: before) rest

def test (r : Regex) (text : List Char) : Bool := (findFrom r [] text).isSome

/-- The text with the first match replaced. -/
def replace (r : Regex) (new text : List Char) : List Char :=
  match findFrom r [] text with
  | some (x, y) => x.before.reverse ++ new ++ y.after
  | none => text

/-- The text with every match replaced; the next `skip` characters belong to the last one. -/
def replaceFrom (r : Regex) (new : List Char) (skip : Nat) (before : List Char) : List Char → List Char
  | [] => if skip = 0 ∧ (r.run some ⟨before, []⟩).isSome then new else []
  | c :: rest =>
    match skip with
    | skip + 1 => replaceFrom r new skip (c :: before) rest
    | 0 =>
      match r.run some ⟨before, c :: rest⟩ with
      | none => c :: replaceFrom r new 0 (c :: before) rest
      | some y =>
        match (c :: rest).length - y.after.length with
        | 0 => new ++ c :: replaceFrom r new 0 (c :: before) rest
        | n + 1 => new ++ replaceFrom r new n (c :: before) rest

def replaceAll (r : Regex) (new text : List Char) : List Char := replaceFrom r new 0 [] text

/-! ## The places a pattern leads to -/

def Matches : Regex → Place → Place → Prop
  | char p, x, y => ∃ c rest, x.after = c :: rest ∧ p c = true ∧ y = ⟨c :: x.before, rest⟩
  | seq r s, x, z => ∃ y, Matches r x y ∧ Matches s y z
  | optional r, x, y => Matches r x y ∨ y = x
  | plus r, x, y => Relation.TransGen (Matches r) x y
  | start, x, y => y = x ∧ x.before = []
  | stop, x, y => y = x ∧ x.after = []
  | notBoundary, x, y => y = x ∧ x.boundary = false
  | ahead r, x, y => y = x ∧ ∃ z, Matches r x z
  | notAhead r, x, y => y = x ∧ ∀ z, ¬ Matches r x z

end Regex

/-- From `x` to `y` stands the text `s`. -/
def Spans (x : Place) (s : List Char) (y : Place) : Prop := x.after = s ++ y.after ∧ y.before = s.reverse ++ x.before

theorem spans_nil {x y : Place} : Spans x [] y ↔ y = x := by
  constructor
  · rintro ⟨hafter, hbefore⟩
    cases x
    cases y
    simp_all
  · rintro rfl
    exact ⟨rfl, rfl⟩

theorem Spans.append {x y z : Place} {s t : List Char} (h : Spans x s y) (h' : Spans y t z) : Spans x (s ++ t) z := by
  obtain ⟨hafter, hbefore⟩ := h
  obtain ⟨hafter', hbefore'⟩ := h'
  exact ⟨by rw [hafter, hafter', List.append_assoc], by rw [hbefore', hbefore, List.reverse_append, List.append_assoc]⟩

/-- The place behind the text `s`. -/
theorem exists_spans {x : Place} {s t : List Char} (h : x.after = s ++ t) : ∃ y, Spans x s y ∧ y.after = t :=
  ⟨⟨s.reverse ++ x.before, t⟩, ⟨h, rfl⟩, rfl⟩

namespace Regex

variable {r : Regex} {x y : Place} {k : Cont}

theorem Matches.spans (h : r.Matches x y) : ∃ s, Spans x s y := by
  induction r generalizing x y with
  | char p =>
    obtain ⟨c, rest, hafter, -, rfl⟩ := h
    exact ⟨[c], hafter, rfl⟩
  | seq r s ihr ihs =>
    obtain ⟨z, hr, hs⟩ := h
    obtain ⟨u, hu⟩ := ihr hr
    obtain ⟨v, hv⟩ := ihs hs
    exact ⟨u ++ v, hu.append hv⟩
  | optional r ih =>
    rcases h with h | rfl
    · exact ih h
    · exact ⟨[], spans_nil.2 rfl⟩
  | plus r ih =>
    induction h with
    | single h => exact ih h
    | tail _ h hx =>
      obtain ⟨u, hu⟩ := hx
      obtain ⟨v, hv⟩ := ih h
      exact ⟨u ++ v, hu.append hv⟩
  | start => exact ⟨[], spans_nil.2 h.1⟩
  | stop => exact ⟨[], spans_nil.2 h.1⟩
  | notBoundary => exact ⟨[], spans_nil.2 h.1⟩
  | ahead r => exact ⟨[], spans_nil.2 h.1⟩
  | notAhead r => exact ⟨[], spans_nil.2 h.1⟩

/-- A match consumes something or stays. -/
theorem Matches.progress (h : r.Matches x y) : y.after.length < x.after.length ∨ y = x := by
  obtain ⟨s, hs⟩ := h.spans
  cases s with
  | nil => exact .inr (spans_nil.1 hs)
  | cons c s =>
    refine .inl ?_
    rw [hs.1, List.length_append, List.length_cons]
    omega

/-! ## The matcher and the places -/

/-- Iterations that stay can be left out. -/
theorem reflTransGen_progress {R : Place → Place → Prop} (hR : ∀ x y, R x y → y.after.length < x.after.length ∨ y = x)
    (h : Relation.ReflTransGen R x y) :
    y = x ∨ ∃ z, R x z ∧ z.after.length < x.after.length ∧ Relation.ReflTransGen R z y := by
  induction h using Relation.ReflTransGen.head_induction_on with
  | refl => exact .inl rfl
  | @head x z hxz hzy ih =>
    rcases hR x z hxz with hlt | rfl
    · exact .inr ⟨z, hxz, hlt, hzy⟩
    · exact ih

theorem iterate_isSome {m : Cont → Cont} {R : Place → Place → Prop}
    (hm : ∀ k x, (m k x).isSome ↔ ∃ y, R x y ∧ (k y).isSome)
    (hR : ∀ x y, R x y → y.after.length < x.after.length ∨ y = x) {n : Nat} (hn : x.after.length ≤ n) :
    (iterate m k n x).isSome ↔ ∃ y, Relation.ReflTransGen R x y ∧ (k y).isSome := by
  induction n generalizing x with
  | zero =>
    rw [iterate]
    constructor
    · intro hk
      exact ⟨x, .refl, hk⟩
    · rintro ⟨y, hxy, hk⟩
      rcases reflTransGen_progress hR hxy with rfl | ⟨z, -, hlt, -⟩
      · exact hk
      · omega
  | succ n ih =>
    rw [iterate, Option.isSome_or, Bool.or_eq_true, hm]
    constructor
    · rintro (⟨z, hxz, hz⟩ | hk)
      · split at hz
        · rename_i hlt
          obtain ⟨y, hzy, hk⟩ := (ih (by omega)).1 hz
          exact ⟨y, .head hxz hzy, hk⟩
        · cases hz
      · exact ⟨x, .refl, hk⟩
    · rintro ⟨y, hxy, hk⟩
      rcases reflTransGen_progress hR hxy with rfl | ⟨z, hxz, hlt, hzy⟩
      · exact .inr hk
      · refine .inl ⟨z, hxz, ?_⟩
        rw [if_pos hlt]
        exact (ih (by omega)).2 ⟨y, hzy, hk⟩

/-- An assertion stays where it is. -/
theorem assert_isSome {P : Prop} [Decidable P] :
    (if P then k x else none).isSome = true ↔ ∃ y, (y = x ∧ P) ∧ (k y).isSome = true := by
  split
  · rename_i h
    simp [h]
  · rename_i h
    simp [h]

/-- **The matcher finds what there is.** -/
theorem run_isSome (r : Regex) (k : Cont) (x : Place) : (r.run k x).isSome ↔ ∃ y, r.Matches x y ∧ (k y).isSome := by
  induction r generalizing k x with
  | char p =>
    rw [run]
    split
    · rename_i hafter
      simp [Matches, hafter]
    · rename_i c rest hafter
      simp only [Matches, hafter, List.cons.injEq]
      split
      · rename_i hp
        constructor
        · intro hk
          exact ⟨_, ⟨c, rest, ⟨rfl, rfl⟩, hp, rfl⟩, hk⟩
        · rintro ⟨_, ⟨_, _, ⟨rfl, rfl⟩, -, rfl⟩, hk⟩
          exact hk
      · rename_i hp
        constructor
        · rintro ⟨⟩
        · rintro ⟨_, ⟨_, _, ⟨rfl, rfl⟩, hp', -⟩, -⟩
          exact absurd hp' hp
  | seq r s ihr ihs =>
    rw [run, ihr]
    constructor
    · rintro ⟨y, hr, hk⟩
      obtain ⟨z, hs, hk⟩ := (ihs k y).1 hk
      exact ⟨z, ⟨y, hr, hs⟩, hk⟩
    · rintro ⟨z, ⟨y, hr, hs⟩, hk⟩
      exact ⟨y, hr, (ihs k y).2 ⟨z, hs, hk⟩⟩
  | optional r ih =>
    rw [run, Option.isSome_or, Bool.or_eq_true, ih]
    constructor
    · rintro (⟨y, hr, hk⟩ | hk)
      · split at hk
        · exact ⟨y, .inl hr, hk⟩
        · cases hk
      · exact ⟨x, .inr rfl, hk⟩
    · rintro ⟨y, hr | rfl, hk⟩
      · rcases hr.progress with hlt | rfl
        · exact .inl ⟨y, hr, by rw [if_pos hlt]; exact hk⟩
        · exact .inr hk
      · exact .inr hk
  | plus r ih =>
    rw [run, ih]
    have hstar : ∀ z, (star (run r) k z).isSome ↔ ∃ y, Relation.ReflTransGen r.Matches z y ∧ (k y).isSome :=
      fun z => iterate_isSome ih (fun _ _ => Matches.progress) (Nat.le_refl _)
    constructor
    · rintro ⟨z, hxz, hz⟩
      obtain ⟨y, hzy, hk⟩ := (hstar z).1 hz
      exact ⟨y, Relation.TransGen.head'_iff.2 ⟨z, hxz, hzy⟩, hk⟩
    · rintro ⟨y, hxy, hk⟩
      obtain ⟨z, hxz, hzy⟩ := Relation.TransGen.head'_iff.1 hxy
      exact ⟨z, hxz, (hstar z).2 ⟨y, hzy, hk⟩⟩
  | start => exact assert_isSome
  | stop => exact assert_isSome
  | notBoundary => exact assert_isSome
  | ahead r ih =>
    have hr : (r.run some x).isSome = true ↔ ∃ z, r.Matches x z := by simp [ih]
    rw [run, assert_isSome]
    simp only [hr, Matches]
  | notAhead r ih =>
    have hr : (r.run some x).isSome = false ↔ ∀ z, ¬ r.Matches x z := by
      rw [← Bool.not_eq_true, ih]
      simp
    rw [run, assert_isSome]
    simp only [hr, Matches]

/-! ## Patterns at the start of the text -/

theorem run_start (r : Regex) (k : Cont) (text : List Char) : (seq start r).run k ⟨[], text⟩ = r.run k ⟨[], text⟩ := rfl

theorem findFrom_start {before : List Char} (h : before ≠ []) (text : List Char) : findFrom (seq start r) before text = none := by
  induction text generalizing before with
  | nil => simp only [findFrom, run, if_neg h, Option.map_none]
  | cons c rest ih => simp only [findFrom, run, if_neg h, ih (List.cons_ne_nil c before)]

theorem test_start (r : Regex) (text : List Char) : (seq start r).test text = true ↔ ∃ y, r.Matches ⟨[], text⟩ y := by
  have hrun : (r.run some ⟨[], text⟩).isSome = true ↔ ∃ y, r.Matches ⟨[], text⟩ y := by simp [run_isSome]
  rw [← hrun, test]
  cases text with
  | nil => rw [findFrom, run_start, Option.isSome_map]
  | cons c rest =>
    rw [findFrom, run_start]
    split
    · rename_i y hy
      simp [hy]
    · rename_i hnone
      rw [findFrom_start (by simp), hnone]
      exact Iff.rfl

theorem replace_start (r : Regex) (new text : List Char) :
    (seq start r).replace new text = ((r.run some ⟨[], text⟩).map fun y => new ++ y.after).getD text := by
  cases text with
  | nil =>
    rw [replace, findFrom, run_start]
    cases r.run some ⟨[], []⟩ <;> rfl
  | cons c rest =>
    rw [replace, findFrom, run_start]
    cases r.run some ⟨[], c :: rest⟩ with
    | some y => rfl
    | none => rw [findFrom_start (by simp)]; rfl

/-! ## Runs of a class of characters -/

/-- A greedy run of a class of characters, from its end. -/
theorem star_char_nil {p : Char → Bool} (before : List Char) : star (run (char p)) k ⟨before, []⟩ = k ⟨before, []⟩ := rfl

theorem star_char_cons {p : Char → Bool} {c : Char} {before rest : List Char} :
    star (run (char p)) k ⟨before, c :: rest⟩ =
      if p c then (star (run (char p)) k ⟨c :: before, rest⟩).or (k ⟨before, c :: rest⟩) else k ⟨before, c :: rest⟩ := by
  rw [star, List.length_cons, iterate]
  by_cases hp : p c = true
  · simp [run, hp, star]
  · simp [run, hp]

/-- A repeated block of `n` characters of a class reads a multiple of `n` of them. -/
theorem matches_plus_block {p : Char → Bool} {n : Nat}
    (hr : ∀ x y, r.Matches x y ↔ ∃ s, s.length = n ∧ (∀ c ∈ s, p c = true) ∧ Spans x s y) :
    (plus r).Matches x y ↔ ∃ s q, 0 < q ∧ s.length = n * q ∧ (∀ c ∈ s, p c = true) ∧ Spans x s y := by
  constructor
  · intro h
    induction h with
    | single h =>
      obtain ⟨s, hlen, hs, hspans⟩ := (hr _ _).1 h
      exact ⟨s, 1, Nat.one_pos, by omega, hs, hspans⟩
    | tail _ h ih =>
      obtain ⟨s, q, -, hlen, hs, hspans⟩ := ih
      obtain ⟨t, hlen', ht, hspans'⟩ := (hr _ _).1 h
      refine ⟨s ++ t, q + 1, Nat.succ_pos q, ?_, ?_, hspans.append hspans'⟩
      · rw [List.length_append, hlen, hlen', Nat.mul_succ]
      · intro c hc
        rcases List.mem_append.1 hc with hc | hc
        · exact hs c hc
        · exact ht c hc
  · rintro ⟨s, q, hq, hlen, hs, hspans⟩
    induction q generalizing x s with
    | zero => omega
    | succ q ih =>
      have hsplit : x.after = s.take n ++ (s.drop n ++ y.after) := by
        rw [← List.append_assoc, List.take_append_drop, hspans.1]
      obtain ⟨z, hz, hrest⟩ := exists_spans hsplit
      have hblock : r.Matches x z := by
        refine (hr _ _).2 ⟨s.take n, ?_, fun c hc => hs c (List.mem_of_mem_take hc), hz⟩
        rw [List.length_take, hlen, Nat.mul_succ]
        omega
      have hlater : Spans z (s.drop n) y := by
        refine ⟨hrest, ?_⟩
        rw [hspans.2, hz.2, ← List.append_assoc, ← List.reverse_append, List.take_append_drop]
      cases q with
      | zero =>
        have hnil : s.drop n = [] := List.drop_eq_nil_of_le (by omega)
        rw [hnil, spans_nil] at hlater
        rw [hlater]
        exact .single hblock
      | succ q =>
        refine .head hblock (ih (s.drop n) (Nat.succ_pos q) ?_ (fun c hc => hs c (List.mem_of_mem_drop hc)) hlater)
        rw [List.length_drop, hlen, Nat.mul_succ]
        omega

theorem matches_char {p : Char → Bool} (x y : Place) :
    (char p).Matches x y ↔ ∃ s, s.length = 1 ∧ (∀ c ∈ s, p c = true) ∧ Spans x s y := by
  constructor
  · rintro ⟨c, rest, hafter, hp, rfl⟩
    exact ⟨[c], rfl, by simpa using hp, hafter, rfl⟩
  · rintro ⟨s, hlen, hs, hafter, hbefore⟩
    obtain ⟨c, rfl⟩ := List.length_eq_one_iff.1 hlen
    refine ⟨c, y.after, hafter, hs c (List.mem_singleton_self c), ?_⟩
    cases y
    simp_all

theorem matches_plus_char {p : Char → Bool} :
    (plus (char p)).Matches x y ↔ ∃ s, s ≠ [] ∧ (∀ c ∈ s, p c = true) ∧ Spans x s y := by
  rw [matches_plus_block matches_char]
  constructor
  · rintro ⟨s, q, hq, hlen, hs, hspans⟩
    exact ⟨s, List.ne_nil_of_length_pos (by omega), hs, hspans⟩
  · rintro ⟨s, hne, hs, hspans⟩
    exact ⟨s, s.length, List.length_pos_iff.2 hne, by omega, hs, hspans⟩

/-! ## Insertions -/

/-- The pattern consumes nothing. -/
def Assertion : Regex → Prop
  | seq r s => Assertion r ∧ Assertion s
  | start | stop | notBoundary | ahead _ | notAhead _ => True
  | char _ | optional _ | plus _ => False

theorem Assertion.run (h : r.Assertion) : r.run k x = k x ∨ r.run k x = none := by
  induction r generalizing k with
  | seq r s ihr ihs =>
    rcases ihr h.1 with hr | hr
    · rw [Regex.run, hr]
      exact ihs h.2
    · exact .inr hr
  | start | stop | notBoundary | ahead | notAhead =>
    rw [Regex.run]
    split
    · exact .inl rfl
    · exact .inr rfl
  | char | optional | plus => exact h.elim

/-- An assertion inserts the text before each character where it holds. -/
theorem replaceFrom_cons (h : r.Assertion) (c : Char) (new before rest : List Char) :
    replaceFrom r new 0 before (c :: rest) =
      (if (r.run some ⟨before, c :: rest⟩).isSome = true then new else []) ++ c :: replaceFrom r new 0 (c :: before) rest := by
  rw [replaceFrom]
  rcases h.run with hrun | hrun
  · rw [hrun]
    simp
  · rw [hrun]
    rfl

end Regex

end Texts
