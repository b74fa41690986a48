import MiniLedger.Ledger.LedgerPoster

/-!
# The loops of `post`

What the three loops return when they return: the maps of `collect`, the owners
`checkOwner` has let through, and for each key of the running map the trail `postLegs`
leaves on it, with the floor it kept to. Keys are texts here; which rows they mean is the
business of `Posted`.
-/

namespace MiniLedger.LedgerPoster

open Collections

/-! ## The accounts -/

theorem collect_ok {currency : Currency} {accounts : List (Option Account)} {start out : Involved}
    (h : collect currency accounts start = .ok out) :
    ∃ as : List Account, accounts = as.map some ∧ (∀ a ∈ as, a.currency.code = currency.code) ∧
      out.floors = start.floors.setAll (as.map fun a => (a.id.value, a.overdraftFloor)) ∧
      out.byId = start.byId.setAll (as.map fun a => (a.id.value, a)) := by
  induction accounts generalizing start with
  | nil => cases h; exact ⟨[], rfl, by simp, rfl, rfl⟩
  | cons o os ih =>
    cases o with
    | none => cases h
    | some a =>
      rw [collect] at h
      split at h
      · cases h
      · rename_i hc
        obtain ⟨as, rfl, has, hf, hb⟩ := ih h
        refine ⟨a :: as, rfl, ?_, hf, hb⟩
        rw [List.forall_mem_cons]
        exact ⟨by simpa [Currency.equals] using hc, has⟩

/-- An account the reads missed ends the loop. -/
theorem collect_none {currency : Currency} {accounts : List (Option Account)} {start : Involved}
    (h : none ∈ accounts) : ∃ e, collect currency accounts start = .error e := by
  cases hr : collect currency accounts start with
  | error e => exact ⟨e, rfl⟩
  | ok out =>
    obtain ⟨as, rfl, _⟩ := collect_ok hr
    simp at h

/-- An account that was read is found under the text of its id, if accounts with one id
are the same. -/
theorem latest_account {α : Type} {as : List Account} {a : Account} {f : Account → α} (ha : a ∈ as)
    (huniq : ∀ b ∈ as, b.id.value = a.id.value → b = a) :
    Keyed.latest a.id.value (as.map fun a => (a.id.value, f a)) = some (f a) := by
  cases hl : Keyed.latest a.id.value (as.map fun a => (a.id.value, f a)) with
  | none => exact absurd (List.mem_map_of_mem ha) (Keyed.latest_eq_none_iff.1 hl (f a))
  | some v =>
    obtain ⟨b, hb, heq⟩ := List.mem_map.1 (Keyed.mem_of_latest hl)
    simp only [Prod.mk.injEq] at heq
    rw [← heq.2, huniq b hb heq.1]

theorem checkOwner_ok {owner : String} {byId : Keyed String Account} {postings : List Posting}
    (h : checkOwner owner byId postings = .ok ()) :
    ∀ p ∈ postings, p.amount.isNegative → ∀ a, byId.get? p.accountId.value = some a →
      a.isSystem ∨ a.isOwnedBy owner := by
  induction postings with
  | nil => simp
  | cons p ps ih =>
    rw [checkOwner] at h
    rw [List.forall_mem_cons]
    split at h
    · split at h
      · rename_i source hs
        split at h
        · cases h
        · rename_i hown
          refine ⟨fun _ a ha => ?_, ih h⟩
          cases hs.symm.trans ha
          by_contra hn
          rw [not_or] at hn
          exact hown ⟨by simpa using hn.1, by simpa using hn.2⟩
      · rename_i hs
        exact ⟨fun _ a ha => by simp [hs] at ha, ih h⟩
    · rename_i hneg
      exact ⟨fun hp => absurd hp hneg, ih h⟩

/-! ## The legs -/

variable {sha256 : String → String} {currency : Currency} {floors : Keyed String (Option Int)} {transactionId : String}

/-- One turn of the loop. -/
theorem postLegs_cons {p : Posting} {ps : List Posting} {running : Keyed String BalanceRow} {legs : Legs}
    (h : postLegs sha256 currency floors transactionId (p :: ps) running = .ok legs) :
    ∃ state next rest, running.get? p.accountId.value = some state ∧
      isSufficient ⟨state.balance, currency⟩ p.amount (floors.get? p.accountId.value).join = .ok true ∧
      next.balance = state.balance + p.amount.amount ∧
      next.chainHash = some (hashPosting sha256 state.chainHash
        ⟨transactionId, p.accountId.value, p.amount.amount, next.balance⟩) ∧
      postLegs sha256 currency floors transactionId ps (running.set p.accountId.value next) = .ok rest ∧
      legs = ⟨⟨next.balance, state.chainHash, next.chainHash.getD ""⟩ :: rest.lines, rest.running⟩ := by
  rw [postLegs] at h
  simp only at h
  split at h
  · cases h
  · rename_i state hs
    split at h
    · cases h
    · cases h
    · rename_i hok
      split at h
      · cases h
      · rename_i rest hr
        cases h
        exact ⟨state, ⟨_, _⟩, rest, hs, hok, rfl, rfl, hr, rfl⟩

theorem postLegs_length {ps : List Posting} {running : Keyed String BalanceRow} {legs : Legs}
    (h : postLegs sha256 currency floors transactionId ps running = .ok legs) : legs.lines.length = ps.length := by
  induction ps generalizing running legs with
  | nil => cases h; rfl
  | cons p ps ih =>
    obtain ⟨_, _, rest, _, _, _, _, hr, rfl⟩ := postLegs_cons h
    simp [ih hr]

theorem postLegs_keys {ps : List Posting} {running : Keyed String BalanceRow} {legs : Legs}
    (h : postLegs sha256 currency floors transactionId ps running = .ok legs) : legs.running.keys = running.keys := by
  induction ps generalizing running legs with
  | nil => cases h; rfl
  | cons p ps ih =>
    obtain ⟨state, _, rest, hs, _, _, _, hr, rfl⟩ := postLegs_cons h
    rw [ih hr, Keyed.keys_set_of_mem (Keyed.mem_keys_iff.2 ⟨state, hs⟩)]

def valuesEntry (v : PostingValues) : ChainEntry :=
  ⟨v.prevHash, v.hash, ⟨v.transactionId, v.accountId, v.amount, v.balanceAfter⟩⟩

/-- The entries `postLegs` adds under the text `k`. -/
def entriesOf (transactionId : String) (ps : List Posting) (lines : List PostingLine) (k : String) : List ChainEntry :=
  ((ps.zipWith (JournalTransactionsRepository.toPostingRow transactionId) lines).filter fun v => v.accountId = k).map
    valuesEntry

theorem entriesOf_cons_self (p : Posting) (ps : List Posting) (l : PostingLine) (ls : List PostingLine) :
    entriesOf transactionId (p :: ps) (l :: ls) p.accountId.value =
      ⟨l.prevHash, l.hash, ⟨transactionId, p.accountId.value, p.amount.amount, l.balanceAfter⟩⟩ ::
        entriesOf transactionId ps ls p.accountId.value := by
  simp [entriesOf, JournalTransactionsRepository.toPostingRow, valuesEntry]

theorem entriesOf_cons_of_ne {p : Posting} {k : String} (h : p.accountId.value ≠ k) (ps : List Posting)
    (l : PostingLine) (ls : List PostingLine) :
    entriesOf transactionId (p :: ps) (l :: ls) k = entriesOf transactionId ps ls k := by
  simp [entriesOf, JournalTransactionsRepository.toPostingRow, h]

/-- From what was locked under `k` the legs lead to what is running under `k` at the end. -/
theorem postLegs_trail {ps : List Posting} {running : Keyed String BalanceRow} {legs : Legs}
    (h : postLegs sha256 currency floors transactionId ps running = .ok legs) {k : String} {s : BalanceRow}
    (hk : running.get? k = some s) :
    ∃ s', legs.running.get? k = some s' ∧
      Trail sha256 s.balance s.chainHash (entriesOf transactionId ps legs.lines k) s'.balance s'.chainHash := by
  induction ps generalizing running legs s with
  | nil => cases h; exact ⟨s, hk, ⟨rfl, rfl⟩⟩
  | cons p ps ih =>
    obtain ⟨state, next, rest, hs, _, hb, hh, hr, rfl⟩ := postLegs_cons h
    by_cases he : p.accountId.value = k
    · subst he
      cases hs.symm.trans hk
      obtain ⟨s', hs', trail⟩ := ih hr (Keyed.get?_set_self ..)
      refine ⟨s', hs', ?_⟩
      rw [entriesOf_cons_self]
      rw [hh] at trail ⊢
      exact ⟨hb, rfl, rfl, trail⟩
    · obtain ⟨s', hs', trail⟩ := ih hr (by rw [Keyed.get?_set_of_ne _ _ (Ne.symm he)]; exact hk)
      refine ⟨s', hs', ?_⟩
      rw [entriesOf_cons_of_ne he]
      exact trail

/-- What the legs move under the text `k`. -/
def moved (ps : List Posting) (k : String) : Int :=
  ((ps.filter fun p => p.accountId.value = k).map fun p => p.amount.amount).sum

@[simp] theorem moved_nil (k : String) : moved [] k = 0 := rfl

theorem moved_cons_self (p : Posting) (ps : List Posting) :
    moved (p :: ps) p.accountId.value = p.amount.amount + moved ps p.accountId.value := by
  simp [moved]

theorem moved_cons_of_ne {p : Posting} {k : String} (h : p.accountId.value ≠ k) (ps : List Posting) :
    moved (p :: ps) k = moved ps k := by
  simp [moved, h]

theorem moved_cons (p : Posting) (ps : List Posting) (k : String) :
    moved (p :: ps) k = (if p.accountId.value = k then p.amount.amount else 0) + moved ps k := by
  by_cases h : p.accountId.value = k
  · rw [if_pos h, ← h, moved_cons_self]
  · rw [if_neg h, moved_cons_of_ne h, Int.zero_add]

/-- Legs on other accounts move nothing under `k`. -/
theorem moved_untouched {ps : List Posting} {k : String} (h : ∀ p ∈ ps, p.accountId.value ≠ k) : moved ps k = 0 := by
  rw [moved, List.filter_eq_nil_iff.2]
  · rfl
  · intro p hp hk
    exact h p hp (of_decide_eq_true hk)

theorem sum_map_ite {ks : List String} {k : String} {a : Int} (hn : ks.Nodup) (hk : k ∈ ks) :
    (ks.map fun k' => if k = k' then a else 0).sum = a := by
  induction ks with
  | nil => simp at hk
  | cons k' ks ih =>
    rw [List.nodup_cons] at hn
    rw [List.map_cons, List.sum_cons]
    by_cases h : k = k'
    · subst h
      have hzero : (ks.map fun k' => if k = k' then a else 0) = ks.map fun _ => 0 :=
        List.map_congr_left fun k' hk' => if_neg fun (heq : k = k') => hn.1 (heq ▸ hk')
      rw [if_pos rfl, hzero]
      simp
    · rw [if_neg h, ih hn.2 ((List.mem_cons.1 hk).resolve_left h), Int.zero_add]

/-- The legs move under all their texts together what they add up to. -/
theorem sum_moved {ps : List Posting} {ks : List String} (hn : ks.Nodup) (hks : ∀ p ∈ ps, p.accountId.value ∈ ks) :
    (ks.map (moved ps)).sum = (ps.map fun p => p.amount.amount).sum := by
  induction ps with
  | nil =>
    have hzero : ks.map (moved []) = ks.map fun _ => 0 := List.map_congr_left fun k _ => moved_nil k
    rw [hzero]
    simp
  | cons p ps ih =>
    rw [List.forall_mem_cons] at hks
    have hsplit : (ks.map (moved (p :: ps))).sum =
        (ks.map fun k => if p.accountId.value = k then p.amount.amount else 0).sum + (ks.map (moved ps)).sum := by
      rw [← List.sum_map_add]
      exact congrArg List.sum (List.map_congr_left fun k _ => moved_cons p ps k)
    rw [hsplit, sum_map_ite hn hks.1, ih hks.2, List.map_cons, List.sum_cons]

theorem entriesOf_sum {ps : List Posting} {lines : List PostingLine} {k : String} (hlen : lines.length = ps.length) :
    ((entriesOf transactionId ps lines k).map fun e => e.content.amount).sum = moved ps k := by
  induction ps generalizing lines with
  | nil => simp [entriesOf, moved]
  | cons p ps ih =>
    cases lines with
    | nil => simp at hlen
    | cons l ls =>
      have ih : _ = moved ps k := ih (Nat.succ.inj hlen)
      by_cases he : p.accountId.value = k
      · subst he
        rw [entriesOf_cons_self, List.map_cons, List.sum_cons, ih, moved_cons_self]
      · rw [entriesOf_cons_of_ne he, ih, moved_cons_of_ne he]

theorem postLegs_moved {ps : List Posting} {running : Keyed String BalanceRow} {legs : Legs}
    (h : postLegs sha256 currency floors transactionId ps running = .ok legs) {k : String} {s s' : BalanceRow}
    (hk : running.get? k = some s) (hk' : legs.running.get? k = some s') : s'.balance = s.balance + moved ps k := by
  obtain ⟨s'', hs'', trail⟩ := postLegs_trail h hk
  cases hs''.symm.trans hk'
  rw [trail.sum, entriesOf_sum (postLegs_length h)]

theorem isSufficient_ok {balance : Int} {delta : Money} {floor : Int}
    (h : isSufficient ⟨balance, currency⟩ delta (some floor) = .ok true) : floor ≤ balance + delta.amount := by
  simp only [isSufficient, Money.add] at h
  split at h
  · simpa [bind, Except.bind, pure, Except.pure] using h
  · cases h

/-- Under a text the floors know, the legs end at or above the floor. -/
theorem postLegs_floor {ps : List Posting} {running : Keyed String BalanceRow} {legs : Legs}
    (h : postLegs sha256 currency floors transactionId ps running = .ok legs) {k : String} {s' : BalanceRow}
    {floor : Int} (hf : floors.get? k = some (some floor)) (hk' : legs.running.get? k = some s')
    (htouched : k ∈ ps.map fun p => p.accountId.value) : floor ≤ s'.balance := by
  induction ps generalizing running legs with
  | nil => simp at htouched
  | cons p ps ih =>
    obtain ⟨state, next, rest, _, hok, hb, _, hr, rfl⟩ := postLegs_cons h
    by_cases htail : k ∈ ps.map fun p => p.accountId.value
    · exact ih hr hk' htail
    · obtain rfl : k = p.accountId.value := by simpa [htail] using htouched
      -- the last leg on `k`: the check of this turn is about the final balance
      have hmoved := postLegs_moved hr (Keyed.get?_set_self ..) hk'
      have hnone : moved ps p.accountId.value = 0 := moved_untouched fun q hq hk => htail (List.mem_map.2 ⟨q, hq, hk⟩)
      rw [hf] at hok
      have := isSufficient_ok hok
      omega

end MiniLedger.LedgerPoster
