import Mathlib.Algebra.Order.BigOperators.Group.List
import MiniLedger.Ledger.Booked
import MiniLedger.Ledger.Runs

/-!
# The overdraft floor

`post` looks the floor of a leg up under the id text of the request. Where that is the text
the database prints, the balance a leg leaves is checked against the floor of its row; a
leg under another spelling is checked against nothing, which does no harm as long as it
credits.
-/

namespace MiniLedger

open Collections Sessions

variable {sha256 : String → String} {db db' : Tables} {w : postgres.World}

/-- Every account with a floor has a balance at or above it. -/
def AboveFloors (t : Tables) : Prop :=
  ∀ u row floor, t.accounts.get? u = some row → row.overdraftFloor = some floor →
    ∃ s, t.balances.get? u = some s ∧ floor ≤ s.balance

/-- The legs whose floor `post` cannot miss: sent as the database prints the id, or on an
account without a floor, or crediting with every leg of that spelling. -/
def FloorKnown (t : Tables) (postings : List Posting) (p : Posting) : Prop :=
  Canonical p.accountId.value ∨ (∀ u row, Names t p.accountId.value u row → row.overdraftFloor = none) ∨
    ∀ q ∈ postings, q.accountId.value = p.accountId.value → 0 ≤ q.amount.amount

theorem AboveFloors.booked {journal : JournalTransaction} {currency : Currency} {options : PostOptions} {b : Booking}
    (h : AboveFloors db) (hv : b.Valid sha256 db journal currency options) (hb : Booked db db' b)
    (known : ∀ p ∈ journal.postings, FloorKnown db journal.postings p) : AboveFloors db' := by
  intro u row floor hrow hfloor
  rw [hb.accounts] at hrow
  obtain ⟨s₀, hs₀, hle⟩ := h u row floor hrow hfloor
  rw [hb.balances, Keyed.get?_setAll]
  cases hl : Keyed.latest u b.balances with
  | none => exact ⟨s₀, by rw [hs₀]; rfl, hle⟩
  | some s =>
    refine ⟨s, rfl, ?_⟩
    obtain ⟨p, hp, s', hu, hs', hlock, hrun⟩ := hv.updated (Keyed.mem_of_latest hl)
    obtain rfl : s' = s₀ := Option.some.inj (hs'.symm.trans hs₀)
    rcases known p hp with hc | hfree | hcredit
    · -- the floor of the row is under the text of the leg
      have htext := (Uuid.text_of_canonical hc hu).symm
      have hf := hv.floor p hp u row ⟨hu, hrow⟩ htext
      rw [hfloor, ← htext] at hf
      exact LedgerPoster.postLegs_floor hv.legs hf hrun (List.mem_map_of_mem hp)
    · rw [hfree u row ⟨hu, hrow⟩] at hfloor
      cases hfloor
    · have hm : 0 ≤ LedgerPoster.moved journal.postings p.accountId.value := by
        refine List.sum_nonneg fun x hx => ?_
        obtain ⟨q, hq, rfl⟩ := List.mem_map.1 hx
        rw [List.mem_filter, decide_eq_true_eq] at hq
        exact hcredit q hq.1 hq.2
      have := LedgerPoster.postLegs_moved hv.legs hlock hrun
      omega

/-- A debit whose source is spelled as the database prints it, or has no floor. -/
def Request.FloorKnown (t : Tables) : Request → Prop
  | .transfer input _ =>
    Canonical input.from_ ∨ ∀ u row, Names t input.from_ u row → row.overdraftFloor = none
  | _ => True

theorem Checked.floorKnown {input : TransferInput} {id : Uuid} {currency : Currency} {amount : Nat}
    {journal : JournalTransaction} (h : Checked input id currency amount journal)
    (hk : (Request.transfer input id).FloorKnown db) : ∀ p ∈ journal.postings, FloorKnown db journal.postings p := by
  rw [h.postings]
  intro p hp
  rcases List.mem_pair.1 hp with rfl | rfl
  · exact hk.imp_right .inl
  · -- the leg that credits, alone under its spelling
    refine .inr (.inr fun q hq htext => ?_)
    rcases List.mem_pair.1 hq with rfl | rfl
    · exact absurd htext h.distinct
    · exact Int.natCast_nonneg amount

theorem aboveFloors_migrated (ids : WorldIds) (createdAt : Nat) (entrySize : String → Nat) : AboveFloors (migrated ids createdAt entrySize).db := by
  intro u row floor hrow hfloor
  obtain ⟨_, -, rfl, -⟩ := migrated_account hrow
  cases hfloor

theorem AboveFloors.commit {request : Request} {r : Reply} {ws : List Write} (hp : request.FloorKnown db)
    (h : AboveFloors db) (hc : Committed sha256 db request r ws) : AboveFloors (postgres.view db ws) := by
  cases hc with
  | @opened input id now currency code _ _ hnone _ =>
    rw [view_opened]
    intro u row floor hrow hfloor
    by_cases hu : u = id
    · subst hu
      rw [Keyed.get?_set_self] at hrow
      cases hrow
      cases hfloor
      exact ⟨⟨0, none⟩, Keyed.get?_set_self .., le_rfl⟩
    · rw [Keyed.get?_set_of_ne _ _ hu] at hrow
      rw [Keyed.get?_set_of_ne _ _ hu]
      exact h u row floor hrow hfloor
  | replayed => exact h
  | transferred currency amount journal b hch hv => exact h.booked hv (booked_transfer ..) (hch.floorKnown hp)
  | reversed target original currency journal b _ _ hcomp _ hv =>
    exact h.booked hv (booked_writes ..) fun p hp => .inl (hcomp.canonical p hp)

/-- **No overdraft.** In every run whose debits name their source as the database prints
it, or a source without a floor, no account is ever below its floor. -/
theorem reachable_aboveFloors (h : Reachable sha256 (fun t request => request.FloorKnown t) w) : AboveFloors w.db := by
  obtain ⟨ids, createdAt, entrySize, hs⟩ := h
  exact hs.invariant (aboveFloors_migrated ids createdAt entrySize) fun hp hi hc => hi.commit hp hc

/-- The rule covers the deposit that funds an account. -/
theorem reachable_aboveFloors_deposit :
    AboveFloors (Sample.after Sample.fundingDigests [Sample.openAlice, Sample.fundAlice]).db := by
  have canonical : Sample.fundAlice.FloorKnown (Sample.after Sample.fundingDigests [Sample.openAlice]).db :=
    .inl (show Canonical Sample.usd.text by decide)
  exact reachable_aboveFloors ⟨Sample.worldIds, 0, Sample.entrySize, .step Sample.fundAlice (.step Sample.openAlice .refl trivial) canonical⟩

/-! ## A run on fixed inputs -/

namespace Sample

def overdraftDigests : List (String × String) :=
  [("|".intercalate ["alice", aliceUpper, usd.text, "25", "USD"],
      "cbede7a0e84a33ffd844349ecf2994b17ced732543452bd8471a5e9f044219cd"),
    ("|".intercalate ["", deposit.text, aliceUpper, "-25", "-25"],
      "5b4b80be0503c90e6b5f110560a5bd64cafd50042bd5253b8e8d237350999b60"),
    ("|".intercalate ["", deposit.text, usd.text, "25", "25"],
      "435550e321fe44d71a4b62895b29c570eac0a9dee923a3e9482c08ef9bf64d94")]

/-- Alice opens an account and withdraws from it, under its id in upper case. -/
def overdrawnWorld : postgres.World :=
  after overdraftDigests [openAlice, .transfer (pay aliceUpper usd.text "25" "alice") deposit]

end Sample

/-- Her balance is then below her floor of zero. -/
theorem not_aboveFloors_overdrawn :
    Reachable (Sample.digest Sample.overdraftDigests) admitted Sample.overdrawnWorld ∧
      ¬ AboveFloors Sample.overdrawnWorld.db := by
  refine ⟨Sample.reachable_after (by decide), fun h => ?_⟩
  have hrow : Sample.overdrawnWorld.db.accounts.get? Sample.alice = some ⟨.user, "USD", some 0, none, some "alice", 0⟩ ∧
      (Sample.overdrawnWorld.db.balances.get? Sample.alice).map BalanceRow.balance = some (-25) := by decide +kernel
  obtain ⟨s, hs, hle⟩ := h Sample.alice _ 0 hrow.1 rfl
  have hneg := hrow.2
  rw [hs] at hneg
  have : s.balance = -25 := Option.some.inj hneg
  omega

end MiniLedger
