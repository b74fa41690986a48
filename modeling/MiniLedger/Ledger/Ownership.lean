import MiniLedger.Ledger.Runs

/-!
# Who may debit an account

`post` looks the source of a debit up under the id text of the request, in a map keyed by
the id text of the database. Where the two are spelled alike the owner check is made;
otherwise the lookup misses and nothing is checked.
-/

namespace MiniLedger

open Sessions

variable {sha256 : String → String} {w : postgres.World}

/-- The row `text` names on `t` is a system account, or `subject` owns it. -/
def MayDebit (t : Tables) (text subject : String) : Prop :=
  ∃ u row, Names t text u row ∧ (row.type = .system ∨ row.ownerId = some subject)

/-- A booking debits only rows its owner may debit, where their ids are canonical. -/
theorem Booking.Valid.mayDebit {t : Tables} {journal : JournalTransaction} {currency : Currency} {options : PostOptions}
    {b : Booking} (h : b.Valid sha256 t journal currency options) {owner : String}
    (howner : options.requireOwner = some owner) (p : Posting) (hp : p ∈ journal.postings)
    (hneg : p.amount.isNegative) (hc : Canonical p.accountId.value) : MayDebit t p.accountId.value owner := by
  obtain ⟨u, row, _, hn, -, -⟩ := h.account p hp
  exact ⟨u, row, hn, h.owner owner howner p hp hneg u row hn (Uuid.text_of_canonical hc hn.1).symm⟩

/-- **Ownership of debited money.** A transfer that posts, sent with the source's id in
lower case, debits a system account or one of the subject's own. -/
theorem transfer_mayDebit {input : TransferInput} {id : Uuid} (hcanonical : Canonical input.from_)
    (hposts : Posts w.db (serve sha256 (.transfer input id) w).2.db) : MayDebit w.db input.from_ input.ownerId := by
  obtain ⟨currency, amount, journal, b, hch, hb, -⟩ := transfer_posts hposts
  have hleg : debit input.from_ amount currency ∈ journal.postings := by
    rw [hch.postings]; exact List.mem_cons_self ..
  have hneg : (debit input.from_ amount currency).amount.isNegative := by
    simpa [debit, Money.isNegative] using hch.positive
  exact hb.mayDebit rfl (debit input.from_ amount currency) hleg hneg hcanonical

/-- Alice spends from her own account. -/
theorem transfer_mayDebit_spending :
    MayDebit (Sample.after Sample.spendingDigests [Sample.openAlice, Sample.fundAlice]).db Sample.alice.text "alice" ∧
      ((Sample.after Sample.spendingDigests [Sample.openAlice, Sample.fundAlice]).db.accounts.get? Sample.alice).map
        (fun row => (row.type, row.ownerId)) = some (.user, some "alice") := by
  have h : ((Sample.after Sample.spendingDigests [Sample.openAlice, Sample.fundAlice]).db.accounts.get? Sample.alice).map
        (fun row => (row.type, row.ownerId)) = some (.user, some "alice") ∧
      (Sample.after Sample.spendingDigests [Sample.openAlice, Sample.fundAlice]).db.journals.get? Sample.second = none ∧
      ((serve (Sample.digest Sample.spendingDigests) Sample.spendAlice
        (Sample.after Sample.spendingDigests [Sample.openAlice, Sample.fundAlice])).2.db.journals.get? Sample.second).isSome := by
    decide +kernel
  have canonical : Canonical (Sample.pay Sample.alice.text Sample.usd.text "25" "alice").from_ := Sample.alice.canonical_text
  exact ⟨transfer_mayDebit canonical ⟨Sample.second, h.2⟩, h.1⟩

/-! ## A run on fixed inputs -/

namespace Sample

def mallorysDigests : List (String × String) :=
  fundingDigests ++
    [("|".intercalate ["mallory", aliceUpper, usd.text, "25", "USD"],
        "15ba0c294b5fb16b3c55061db017cde05c109ad73a4b8fecc780dc6bb80660cd"),
      ("|".intercalate ["f8ec3841310aa3d2ace6997273f3b833bb4c8334d8a31e6b1d1fa8e7839da3ef", second.text, aliceUpper,
          "-25", "75"],
        "663a0d5f6a671bfd25f755410d1bffba7063e2185a7618ea6daa194cf48bb43e"),
      ("|".intercalate ["5606763eb3120fd42b4c43ccad70cd7a244b40cc02b375f7ac667287f7d4d6fa", second.text, usd.text,
          "25", "-75"],
        "76c65b8ae65f31ab98eef1bbe898da7ed79f2836260f0ade5442640d7975a778")]

def mallorysTransfer : TransferInput := pay aliceUpper usd.text "25" "mallory"

end Sample

/-- Alice's account, funded, in the world Mallory's transfer meets. -/
def Sample.mallorysWorld : postgres.World := Sample.after Sample.mallorysDigests [Sample.openAlice, Sample.fundAlice]

/-- Mallory spells Alice's id in upper case and posts a debit of Alice's account. -/
theorem transfer_debits_foreign_account :
    Reachable (Sample.digest Sample.mallorysDigests) admitted Sample.mallorysWorld ∧
      Sample.mallorysTransfer.Admitted ∧
      Posts Sample.mallorysWorld.db (serve (Sample.digest Sample.mallorysDigests)
        (.transfer Sample.mallorysTransfer Sample.second) Sample.mallorysWorld).2.db ∧
      ¬ MayDebit Sample.mallorysWorld.db Sample.mallorysTransfer.from_ Sample.mallorysTransfer.ownerId := by
  have hrow : Sample.mallorysWorld.db.accounts.get? Sample.alice = some ⟨.user, "USD", some 0, none, some "alice", 0⟩ ∧
      Sample.mallorysWorld.db.journals.get? Sample.second = none ∧
      ((serve (Sample.digest Sample.mallorysDigests) (.transfer Sample.mallorysTransfer Sample.second)
        Sample.mallorysWorld).2.db.journals.get? Sample.second).isSome := by decide +kernel
  refine ⟨Sample.reachable_after (by decide), by decide, ⟨Sample.second, hrow.2⟩, ?_⟩
  rintro ⟨u, row, ⟨hu, hg⟩, h⟩
  have ha : Uuid.parse? Sample.mallorysTransfer.from_ = some Sample.alice := by decide
  obtain rfl : u = Sample.alice := Option.some.inj (hu.symm.trans ha)
  obtain rfl := Option.some.inj (hg.symm.trans hrow.1)
  rcases h with h | h <;> revert h <;> decide

end MiniLedger
