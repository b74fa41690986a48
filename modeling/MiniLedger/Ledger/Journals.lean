import MiniLedger.Ledger.BalanceFold

/-!
# What a journal is made of

`create` goes over the postings once and stops at the first it refuses; only then does it
add them up, with an addition that throws on a second currency. The loop has seen to it that
there is none, so every list of postings ends in a journal or in one of the four errors, and
which of them is decided by the postings alone.
-/

namespace MiniLedger

open Collections

variable {id : String} {postings : List Posting} {first p : Posting} {currency : Currency} {e : JournalError}

/-! ## The specification -/

/-- The postings of a journal. -/
structure Journalable (postings : List Posting) : Prop where
  nonempty : postings ≠ []
  oneCurrency : ∀ p ∈ postings, ∀ q ∈ postings, p.amount.currency.code = q.amount.currency.code
  nonzero : ∀ p ∈ postings, p.amount.amount ≠ 0
  balanced : (postings.map fun p => p.amount.amount).sum = 0

/-- A posting in the currency of the first one that moves something. -/
def Fitting (first p : Posting) : Prop := p.amount.currency.code = first.amount.currency.code ∧ p.amount.amount ≠ 0

/-- Why the postings make no journal. -/
inductive Defective : List Posting → JournalError → Prop where
  | empty : Defective [] .empty
  /-- the first unfitting posting is in another currency, be its amount zero or not -/
  | currencyMismatch {first rest} (before p after) (split : first :: rest = before ++ p :: after)
      (fitting : ∀ q ∈ before, Fitting first q) (differs : p.amount.currency.code ≠ first.amount.currency.code) :
      Defective (first :: rest) .currencyMismatch
  /-- the first unfitting posting moves nothing -/
  | zeroAmountPosting {first rest} (before p after) (split : first :: rest = before ++ p :: after)
      (fitting : ∀ q ∈ before, Fitting first q) (same : p.amount.currency.code = first.amount.currency.code)
      (zero : p.amount.amount = 0) : Defective (first :: rest) .zeroAmountPosting
  | unbalanced {first rest} (fitting : ∀ q ∈ first :: rest, Fitting first q)
      (sum : ((first :: rest).map fun p => p.amount.amount).sum ≠ 0) : Defective (first :: rest) .unbalanced

/-! ## The loop -/

namespace JournalTransaction

/-- The loop stops at the first unfitting posting, and there the currency goes first. -/
theorem firstDefect_some (h : firstDefect first.amount.currency postings = some e) :
    ∃ before p after, postings = before ++ p :: after ∧ (∀ q ∈ before, Fitting first q) ∧
      ((p.amount.currency.code ≠ first.amount.currency.code ∧ e = .currencyMismatch) ∨
        (p.amount.currency.code = first.amount.currency.code ∧ p.amount.amount = 0 ∧ e = .zeroAmountPosting)) := by
  induction postings with
  | nil => cases h
  | cons p ps ih =>
    unfold firstDefect at h
    split at h
    · rename_i hc
      cases h
      exact ⟨[], p, ps, rfl, by simp, .inl ⟨by simpa [Currency.equals] using hc, rfl⟩⟩
    · rename_i hc
      have hsame : p.amount.currency.code = first.amount.currency.code := by simpa [Currency.equals] using hc
      split at h
      · rename_i hz
        cases h
        exact ⟨[], p, ps, rfl, by simp, .inr ⟨hsame, by simpa [Money.isZero] using hz, rfl⟩⟩
      · rename_i hz
        obtain ⟨before, q, after, rfl, hfitting, hq⟩ := ih h
        refine ⟨p :: before, q, after, rfl, ?_, hq⟩
        rw [List.forall_mem_cons]
        exact ⟨⟨hsame, by simpa [Money.isZero] using hz⟩, hfitting⟩

theorem firstDefect_append {before after : List Posting} (hfitting : ∀ q ∈ before, Fitting first q) :
    firstDefect first.amount.currency (before ++ after) = firstDefect first.amount.currency after := by
  induction before with
  | nil => rfl
  | cons q qs ih =>
    rw [List.forall_mem_cons] at hfitting
    obtain ⟨⟨hsame, hmoves⟩, hrest⟩ := hfitting
    rw [List.cons_append, firstDefect, if_neg (by simp [Currency.equals, hsame]), if_neg (by simpa [Money.isZero] using hmoves),
      ih hrest]

end JournalTransaction

/-! ## What `create` answers -/

theorem Journalable.fitting (h : Journalable (first :: postings)) : ∀ p ∈ first :: postings, Fitting first p :=
  fun p hp => ⟨h.oneCurrency p hp first (List.mem_cons_self ..), h.nonzero p hp⟩

theorem journalable_of_fitting (hfitting : ∀ p ∈ first :: postings, Fitting first p)
    (hsum : ((first :: postings).map fun p => p.amount.amount).sum = 0) : Journalable (first :: postings) where
  nonempty := List.cons_ne_nil _ _
  oneCurrency p hp q hq := (hfitting p hp).1.trans (hfitting q hq).1.symm
  nonzero p hp := (hfitting p hp).2
  balanced := hsum

theorem Defective.not_journalable (h : Defective postings e) : ¬ Journalable postings := by
  intro hj
  cases h with
  | empty => exact hj.nonempty rfl
  | currencyMismatch before p after hsplit _ hdiffers =>
    exact hdiffers (hj.fitting p (hsplit ▸ List.mem_append_right _ (List.mem_cons_self ..))).1
  | zeroAmountPosting before p after hsplit _ _ hzero =>
    exact (hj.fitting p (hsplit ▸ List.mem_append_right _ (List.mem_cons_self ..))).2 hzero
  | unbalanced _ hsum => exact hsum hj.balanced

/-- A defect is answered with its name. -/
theorem Defective.create (h : Defective postings e) (id : String) : JournalTransaction.create id postings = .ok (.error e) := by
  cases h with
  | empty => rfl
  | @currencyMismatch first rest before p after hsplit hfitting hdiffers =>
    apply JournalTransaction.create_defect
    rw [hsplit, JournalTransaction.firstDefect_append hfitting, JournalTransaction.firstDefect,
      if_pos (by simpa [Currency.equals] using hdiffers)]
  | @zeroAmountPosting first rest before p after hsplit hfitting hsame hzero =>
    apply JournalTransaction.create_defect
    rw [hsplit, JournalTransaction.firstDefect_append hfitting, JournalTransaction.firstDefect,
      if_neg (by simp [Currency.equals, hsame]), if_pos (by simpa [Money.isZero] using hzero)]
  | @unbalanced first rest hfitting hsum =>
    have hnone := JournalTransaction.firstDefect_eq_none hfitting
    obtain ⟨hzero, -⟩ | ⟨-, hcreate⟩ := @JournalTransaction.create_sound id _ _ hnone
    · exact absurd hzero hsum
    · exact hcreate

/-- There is a journal or a defect, and no exception. -/
theorem create_cases (id : String) (postings : List Posting) :
    (Journalable postings ∧ ∃ j, JournalTransaction.create id postings = .ok (.ok j) ∧ j.id = id ∧ j.postings = postings) ∨
      ∃ e, Defective postings e ∧ JournalTransaction.create id postings = .ok (.error e) := by
  cases postings with
  | nil => exact .inr ⟨_, .empty, rfl⟩
  | cons first rest =>
    cases hd : JournalTransaction.firstDefect first.amount.currency (first :: rest) with
    | some defect =>
      refine .inr ⟨defect, ?_, JournalTransaction.create_defect hd⟩
      obtain ⟨before, p, after, hsplit, hfitting, hdefect⟩ := JournalTransaction.firstDefect_some hd
      obtain ⟨hdiffers, rfl⟩ | ⟨hsame, hzero, rfl⟩ := hdefect
      · exact .currencyMismatch before p after hsplit hfitting hdiffers
      · exact .zeroAmountPosting before p after hsplit hfitting hsame hzero
    | none =>
      have hfitting : ∀ p ∈ first :: rest, Fitting first p := JournalTransaction.firstDefect_none hd
      obtain ⟨hzero, j, hj, hid, -, hps⟩ | ⟨hsum, hcreate⟩ := @JournalTransaction.create_sound id _ _ hd
      · exact .inl ⟨journalable_of_fitting hfitting hzero, j, hj, hid, hps⟩
      · exact .inr ⟨_, .unbalanced hfitting hsum, hcreate⟩

/-! ## The totals -/

/-- One posting adds its amount to the totals. -/
theorem sum_fold (postings : List Posting) (start : Keyed String Int) :
    (postings.foldl (fun balances posting =>
      balances.set posting.accountId.value ((balances.get? posting.accountId.value).getD 0 + posting.amount.amount))
      start).sum (fun _ total => total) =
      start.sum (fun _ total => total) + (postings.map fun p => p.amount.amount).sum := by
  induction postings generalizing start with
  | nil => simp
  | cons p ps ih =>
    rw [List.foldl_cons, ih, List.map_cons, List.sum_cons, ← Int.add_assoc]
    congr 1
    cases hget : start.get? p.accountId.value with
    | none =>
      rw [Option.getD_none, Int.zero_add, Keyed.sum, Keyed.entries_set_of_none hget, List.map_append, List.sum_append]
      simp [Keyed.sum]
    | some old =>
      rw [Option.getD_some, Keyed.sum_set hget]
      omega

theorem foldByAccount_sum (postings : List Posting) :
    (foldByAccount postings).sum (fun _ total => total) = (postings.map fun p => p.amount.amount).sum := by
  rw [foldByAccount, sum_fold]
  exact Int.zero_add _

/-- **Journal construction.** `create` never throws. It makes a journal of exactly the
balanced lists, which keeps the postings as they came and whose totals by account add up to
nothing; and it answers every other list with the one defect that comes first. -/
theorem create_decides (id : String) (postings : List Posting) :
    (∃ answer, JournalTransaction.create id postings = .ok answer) ∧
      ((∃ j, JournalTransaction.create id postings = .ok (.ok j)) ↔ Journalable postings) ∧
      (∀ j, JournalTransaction.create id postings = .ok (.ok j) → j.id = id ∧ j.postings = postings ∧
        (∀ k, (foldByAccount j.postings).get? k =
          if ∃ p ∈ postings, p.accountId.value = k then some (LedgerPoster.moved postings k) else none) ∧
        (foldByAccount j.postings).sum (fun _ total => total) = 0) ∧
      ∀ e, JournalTransaction.create id postings = .ok (.error e) ↔ Defective postings e := by
  refine ⟨?_, ⟨?_, ?_⟩, ?_, fun e => ⟨?_, fun h => h.create id⟩⟩
  · obtain ⟨-, j, hj, -⟩ | ⟨e, -, he⟩ := create_cases id postings
    · exact ⟨_, hj⟩
    · exact ⟨_, he⟩
  · rintro ⟨j, hj⟩
    obtain ⟨h, -⟩ | ⟨e, -, he⟩ := create_cases id postings
    · exact h
    · cases he.symm.trans hj
  · intro h
    obtain ⟨-, j, hj, -⟩ | ⟨e, he, -⟩ := create_cases id postings
    · exact ⟨j, hj⟩
    · exact absurd h he.not_journalable
  · intro j hj
    obtain ⟨hid, hps, -⟩ := JournalTransaction.create_ok hj
    refine ⟨hid, hps, fun k => ?_, ?_⟩
    · rw [hps, foldByAccount, fold_get?, Keyed.get?_empty, Option.getD_none, Int.zero_add]
    · rw [foldByAccount_sum, j.balanced]
  · intro h
    obtain ⟨-, j, hj, -⟩ | ⟨e', he', hcreate⟩ := create_cases id postings
    · cases hj.symm.trans h
    · cases hcreate.symm.trans h
      exact he'

end MiniLedger
