import Mathlib.Data.List.Infix
import Mathlib.Order.Lattice

/-!
# Paging through a list that grows

A reader takes the rows of a sorted list page by page and remembers the key of the last row
it saw. Between two pages the list may grow, at its end only. Then the pages join to a
prefix of the list as it last was, with nothing skipped and nothing repeated.
-/

namespace Collections

variable {α β : Type} [LinearOrder β] (key : α → β)

/-- In strictly ascending order of the key. -/
def Increasing (rows : List α) : Prop := rows.Pairwise fun x y => key x < key y

/-- The rows behind the cursor; no cursor stands before all of them. -/
def after (cursor : Option β) (rows : List α) : List α := rows.filter fun x => ∀ b ∈ cursor, b < key x

/-- A page and the cursor of the next. -/
structure Page (α β : Type) where
  entries : List α
  next : Option β

/-- One row more than asked for tells whether there is a next page. -/
def page (limit : Nat) (cursor : Option β) (rows : List α) : Page α β :=
  let found := (after key cursor rows).take (limit + 1)
  let entries := found.take limit
  ⟨entries, if limit < found.length then entries.getLast?.map key else none⟩

/-- The pages of a reader who asks for `limits` rows in turn until there is no next page;
the `i`-th page meets the list `snapshots i`. -/
def pages : List Nat → Option β → (Nat → List α) → List (Page α β)
  | [], _, _ => []
  | limit :: limits, cursor, snapshots =>
    let first := page key limit cursor (snapshots 0)
    match first.next with
    | none => [first]
    | some next => first :: pages limits (some next) fun i => snapshots (i + 1)

/-- The cursor of a reader who has seen the first `n` rows. -/
def cursorAt (rows : List α) (n : Nat) : Option β := (rows.take n).getLast?.map key

variable {key} {rows rows' : List α} {n limit : Nat}

/-- Behind the cursor stand the rows not seen yet. -/
theorem after_cursorAt (h : Increasing key rows) (n : Nat) : after key (cursorAt key rows n) rows = rows.drop n := by
  have hsplit : Increasing key (rows.take n ++ rows.drop n) := by rwa [List.take_append_drop]
  obtain ⟨hseen, -, hcross⟩ := List.pairwise_append.1 hsplit
  have hcases : after key (cursorAt key rows n) (rows.take n ++ rows.drop n) = rows.drop n := by
    rw [after, List.filter_append]
    rcases List.eq_nil_or_concat (rows.take n) with hnil | ⟨seen, last, hlast⟩
    · rw [cursorAt, hnil]
      simp
    · rw [List.concat_eq_append] at hlast
      have hcursor : cursorAt key rows n = some (key last) := by rw [cursorAt, hlast, List.getLast?_concat]; rfl
      have hmem : last ∈ rows.take n := by rw [hlast]; exact List.mem_append_right _ (List.mem_singleton_self _)
      rw [hcursor, List.filter_eq_nil_iff.2, List.filter_eq_self.2, List.nil_append]
      · intro y hy
        simpa using hcross last hmem y hy
      · intro x hx
        rw [hlast] at hx hseen
        rcases List.mem_append.1 hx with hx | hx
        · have hlt := (List.pairwise_append.1 hseen).2.2 x hx last (List.mem_singleton_self _)
          simpa using hlt.le
        · rw [List.mem_singleton.1 hx]
          simp
  rwa [List.take_append_drop] at hcases

theorem take_grown (h : rows <+: rows') (hn : n ≤ rows.length) : rows'.take n = rows.take n := by
  obtain ⟨more, rfl⟩ := h
  exact List.take_append_of_le_length hn

omit [LinearOrder β] in
/-- The cursor stays where it was while the list grows. -/
theorem cursorAt_grown (h : rows <+: rows') (hn : n ≤ rows.length) :
    cursorAt key rows' n = cursorAt key rows n := by
  rw [cursorAt, cursorAt, take_grown h hn]

/-- A page takes up where the cursor stands; its own cursor is the place it ends at, and
none if it ends with the list. -/
theorem page_cursorAt (h : Increasing key rows) (hlimit : 1 ≤ limit) :
    page key limit (cursorAt key rows n) rows =
      ⟨(rows.drop n).take limit, if n + limit < rows.length then cursorAt key rows (n + limit) else none⟩ := by
  have hentries : ((rows.drop n).take (limit + 1)).take limit = (rows.drop n).take limit := by
    rw [List.take_take, Nat.min_eq_left (Nat.le_succ limit)]
  have hmore : limit < ((rows.drop n).take (limit + 1)).length ↔ n + limit < rows.length := by
    rw [List.length_take, List.length_drop]
    omega
  unfold page
  simp only [after_cursorAt h, hentries, hmore]
  congr 1
  split
  · rename_i hlt
    have hne : (rows.drop n).take limit ≠ [] := by
      intro hnil
      have hlen := congrArg List.length hnil
      rw [List.length_take, List.length_drop, List.length_nil] at hlen
      omega
    rw [cursorAt, List.take_add, List.getLast?_append_of_ne_nil _ hne]
  · rfl

omit [LinearOrder β] in
/-- The key of the last row seen. -/
theorem cursorAt_succ (hn : n < rows.length) : cursorAt key rows (n + 1) = some (key rows[n]) := by
  rw [cursorAt, List.take_add_one, List.getElem?_eq_getElem hn, Option.toList_some, List.getLast?_concat, Option.map_some]

/-- The cursor moves on. -/
theorem cursorAt_lt (h : Increasing key rows) {m : Nat} (hnm : n < m) (hm : m ≤ rows.length) {b c : β}
    (hb : cursorAt key rows n = some b) (hc : cursorAt key rows m = some c) : b < c := by
  cases n with
  | zero => cases hb
  | succ n =>
    cases m with
    | zero => omega
    | succ m =>
      rw [cursorAt_succ (by omega)] at hb hc
      cases hb
      cases hc
      exact List.pairwise_iff_getElem.1 h n m (by omega) (by omega) (by omega)

/-- What a reader has who started behind the first `n` rows: the pages join to the next rows
of the list as the last page met it, up to its end if there is no next page, and each cursor
is above the one before. -/
structure Joins (key : α → β) (snapshots : Nat → List α) (n : Nat) (read : List (Page α β)) : Prop where
  cursors : (read.filterMap Page.next).Pairwise (· < ·)
  behind : ∀ b, cursorAt key (snapshots 0) n = some b → ∀ c ∈ read.filterMap Page.next, b < c
  joined : ∃ m, n ≤ m ∧ m ≤ (snapshots (read.length - 1)).length ∧
    (snapshots 0).take n ++ read.flatMap Page.entries = (snapshots (read.length - 1)).take m ∧
    ∀ last, read.getLast? = some last → last.next = none → m = (snapshots (read.length - 1)).length

/-- **Paging neither skips nor repeats.** -/
theorem pages_joins {limits : List Nat} {snapshots : Nat → List α} (hlimits : ∀ limit ∈ limits, 1 ≤ limit)
    (hsorted : ∀ i, Increasing key (snapshots i)) (hgrows : ∀ i, snapshots i <+: snapshots (i + 1))
    (hn : n ≤ (snapshots 0).length) :
    Joins key snapshots n (pages key limits (cursorAt key (snapshots 0) n) snapshots) := by
  induction limits generalizing snapshots n with
  | nil =>
    refine ⟨List.Pairwise.nil, fun _ _ _ hc => absurd hc List.not_mem_nil, n, le_rfl, hn, ?_, nofun⟩
    rw [pages, List.flatMap_nil, List.append_nil]
    rfl
  | cons limit limits ih =>
    rw [List.forall_mem_cons] at hlimits
    have hjoin : (snapshots 0).take n ++ ((snapshots 0).drop n).take limit = (snapshots 0).take (n + limit) :=
      List.take_add.symm
    rw [pages, page_cursorAt (hsorted 0) hlimits.1]
    by_cases hmore : n + limit < (snapshots 0).length
    · -- the next page goes on where this one stopped
      have hnext : cursorAt key (snapshots 0) (n + limit) = some (key (snapshots 0)[n + limit - 1]) := by
        rw [← cursorAt_succ (by omega), Nat.sub_add_cancel (by omega)]
      have hkept : cursorAt key (snapshots 1) (n + limit) = cursorAt key (snapshots 0) (n + limit) :=
        cursorAt_grown (hgrows 0) hmore.le
      have hlen := (hgrows 0).length_le
      have rest := ih hlimits.2 (fun i => hsorted (i + 1)) (fun i => hgrows (i + 1)) (n := n + limit) (by omega)
      rw [hkept, hnext] at rest
      simp only [if_pos hmore, hnext]
      generalize pages key limits _ _ = read at rest ⊢
      obtain ⟨m, hnm, hm, hjoined, hend⟩ := rest.joined
      have behind : ∀ c ∈ read.filterMap Page.next, key (snapshots 0)[n + limit - 1] < c :=
        rest.behind _ (hkept.trans hnext)
      refine ⟨?_, fun b hb c hc => ?_, ?_⟩
      · exact List.pairwise_cons.2 ⟨behind, rest.cursors⟩
      · have hlt := cursorAt_lt (hsorted 0) (by omega) hmore.le hb hnext
        rcases List.mem_cons.1 hc with rfl | hc
        · exact hlt
        · exact hlt.trans (behind c hc)
      · cases read with
        | nil =>
          refine ⟨n + limit, by omega, hmore.le, ?_, ?_⟩
          · rw [List.flatMap_cons, List.flatMap_nil, List.append_nil]
            exact hjoin
          · intro last hlast hnone
            cases hlast
            cases hnone
        | cons second read =>
          refine ⟨m, by omega, hm, ?_, fun last hlast hnone => hend last ?_ hnone⟩
          · rw [List.flatMap_cons, ← List.append_assoc, hjoin, ← take_grown (hgrows 0) hmore.le]
            exact hjoined
          · rwa [List.getLast?_cons_cons] at hlast
    · simp only [if_neg hmore]
      refine ⟨List.Pairwise.nil, fun _ _ _ hc => absurd hc List.not_mem_nil, (snapshots 0).length, hn, le_rfl, ?_, fun _ _ _ => rfl⟩
      rw [List.flatMap_cons, List.flatMap_nil, List.append_nil, hjoin, List.take_of_length_le (by omega)]
      exact List.take_length.symm

/-- A reader who goes on for more pages than the list has rows comes to its end. -/
theorem pages_end {limits : List Nat} {snapshots : Nat → List α} (hlimits : ∀ limit ∈ limits, 1 ≤ limit)
    (hsorted : ∀ i, Increasing key (snapshots i)) (hgrows : ∀ i, snapshots i <+: snapshots (i + 1)) {size : Nat}
    (hsize : ∀ i, (snapshots i).length ≤ size) (hlong : size < n + limits.length) (hn : n ≤ (snapshots 0).length) :
    ∃ last, (pages key limits (cursorAt key (snapshots 0) n) snapshots).getLast? = some last ∧ last.next = none := by
  induction limits generalizing snapshots n with
  | nil =>
    have := hsize 0
    rw [List.length_nil] at hlong
    omega
  | cons limit limits ih =>
    rw [List.forall_mem_cons] at hlimits
    rw [List.length_cons] at hlong
    rw [pages, page_cursorAt (hsorted 0) hlimits.1]
    by_cases hmore : n + limit < (snapshots 0).length
    · have hnext : cursorAt key (snapshots 0) (n + limit) = some (key (snapshots 0)[n + limit - 1]) := by
        rw [← cursorAt_succ (by omega), Nat.sub_add_cancel (by omega)]
      have hlen := (hgrows 0).length_le
      obtain ⟨last, hlast, hnone⟩ := ih hlimits.2 (fun i => hsorted (i + 1)) (fun i => hgrows (i + 1))
        (fun i => hsize (i + 1)) (n := n + limit) (by omega) (by omega)
      have hkept : cursorAt key (snapshots 1) (n + limit) = cursorAt key (snapshots 0) (n + limit) :=
        cursorAt_grown (hgrows 0) hmore.le
      rw [hkept, hnext] at hlast
      simp only [if_pos hmore, hnext]
      refine ⟨last, ?_, hnone⟩
      rw [List.getLast?_cons, hlast]
      rfl
    · simp only [if_neg hmore]
      exact ⟨_, rfl, rfl⟩

end Collections
