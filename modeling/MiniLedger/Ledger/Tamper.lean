import Mathlib
import MiniLedger.Collections.Joined
import MiniLedger.Ledger.Audit

/-!
# Tampering with a chain

What the verifier's loop accepts is a chain in which every entry links to the hash before
it (`Linked`), and where it stops is the first entry that does not. With a digest free of
collisions a chain is determined by its head, so nothing can be changed in it under the
head on record, and a changed entry is the one the verifier points at.
-/

namespace MiniLedger

open Collections Sessions

/-- What the chain relies on of the digest. -/
structure Digest (sha256 : String → String) : Prop where
  injective : Function.Injective sha256
  nonempty : ∀ text, sha256 text ≠ ""

/-- The ids hold no separator. -/
def PostingContent.Plain (content : PostingContent) : Prop :=
  Free '|' content.transactionId ∧ Free '|' content.accountId

instance (content : PostingContent) : Decidable content.Plain := inferInstanceAs (Decidable (_ ∧ _))

variable {sha256 : String → String} {prev : Option String} {index : Nat} {entry : ChainEntry}
  {entries xs ys : List ChainEntry}

/-! ## What the loop accepts -/

/-- The hash the next entry has to link to. -/
def chainHead (entries : List ChainEntry) : Option String := entries.getLast?.map ChainEntry.hash

/-- The check of one turn of the loop. -/
def Links (sha256 : String → String) (prev : Option String) (entry : ChainEntry) : Prop :=
  entry.prevHash = prev ∧ entry.hash = hashPosting sha256 prev entry.content

/-- Every entry links to the one before it, the first to `prev`. -/
def Linked (sha256 : String → String) : Option String → List ChainEntry → Prop
  | _, [] => True
  | prev, entry :: entries => Links sha256 prev entry ∧ Linked sha256 (some entry.hash) entries

@[simp] theorem chainHead_nil : chainHead [] = none := rfl

@[simp] theorem chainHead_snoc : chainHead (xs ++ [entry]) = some entry.hash := by simp [chainHead]

theorem chainHead_cons_or : (chainHead (entry :: entries)).or prev = (chainHead entries).or (some entry.hash) := by
  cases entries with
  | nil => simp [chainHead]
  | cons e es => simp [chainHead, List.getLast?_eq_some_getLast]

theorem linked_append : Linked sha256 prev (xs ++ ys) ↔
    Linked sha256 prev xs ∧ Linked sha256 ((chainHead xs).or prev) ys := by
  induction xs generalizing prev with
  | nil => simp [Linked]
  | cons x xs ih => rw [List.cons_append, Linked, Linked, ih, chainHead_cons_or, and_assoc]

theorem linked_snoc : Linked sha256 none (xs ++ [entry]) ↔ Linked sha256 none xs ∧ Links sha256 (chainHead xs) entry := by
  rw [linked_append, Option.or_none, Linked, Linked, and_true]

/-- The hash at the head of a chain is a digest. -/
theorem Linked.head (h : Linked sha256 none xs) : ∀ hash ∈ chainHead xs, ∃ text, hash = sha256 text := by
  intro hash hm
  cases xs using List.reverseRecOn with
  | nil => cases hm
  | append_singleton xs e =>
    rw [chainHead_snoc] at hm
    cases hm
    exact ⟨_, (linked_snoc.1 h).2.2⟩

/-! ## What the loop returns -/

/-- One turn of the loop. -/
theorem verifyFrom_cons : verifyFrom sha256 prev index (entry :: entries) =
    open Classical in if Links sha256 prev entry then verifyFrom sha256 (some entry.hash) (index + 1) entries
      else ⟨false, some index⟩ := by
  rw [verifyFrom]
  by_cases hl : Links sha256 prev entry
  · rw [if_pos hl, if_neg (by rintro (h | h); exacts [h hl.1, h hl.2])]
  · rw [if_neg hl, if_pos (by by_contra h; rw [not_or, not_not, not_not] at h; exact hl h)]

/-- The loop ends well on a linked list. -/
theorem Linked.verifyFrom (h : Linked sha256 prev entries) : verifyFrom sha256 prev index entries = ⟨true, none⟩ := by
  induction entries generalizing prev index with
  | nil => rfl
  | cons e es ih => rw [verifyFrom_cons, if_pos h.1, ih h.2]

/-- The loop stops at the first entry that does not link. -/
theorem verifyFrom_stop (h : Linked sha256 prev xs) (hl : ¬ Links sha256 ((chainHead xs).or prev) entry) :
    verifyFrom sha256 prev index (xs ++ entry :: ys) = ⟨false, some (index + xs.length)⟩ := by
  induction xs generalizing prev index with
  | nil => rw [List.nil_append, verifyFrom_cons, if_neg (by simpa using hl)]; rfl
  | cons x xs ih =>
    rw [chainHead_cons_or] at hl
    rw [List.cons_append, verifyFrom_cons, if_pos h.1, ih h.2 hl, List.length_cons]
    congr 2
    omega

variable (sha256) in
/-- A list is linked, or has a first entry that does not link. -/
theorem linked_or_stop (prev : Option String) (entries : List ChainEntry) :
    Linked sha256 prev entries ∨ ∃ xs entry ys, entries = xs ++ entry :: ys ∧ Linked sha256 prev xs ∧
      ¬ Links sha256 ((chainHead xs).or prev) entry := by
  induction entries generalizing prev with
  | nil => exact .inl trivial
  | cons e es ih =>
    by_cases hl : Links sha256 prev e
    · rcases ih (some e.hash) with h | ⟨xs, x, ys, rfl, hxs, hx⟩
      · exact .inl ⟨hl, h⟩
      · exact .inr ⟨e :: xs, x, ys, rfl, ⟨hl, hxs⟩, by rwa [chainHead_cons_or]⟩
    · exact .inr ⟨[], e, es, rfl, trivial, hl⟩

theorem verifyChain_valid_iff : (verifyChain sha256 entries).valid = true ↔ Linked sha256 none entries := by
  constructor
  · intro hv
    rcases linked_or_stop sha256 none entries with h | ⟨xs, x, ys, rfl, hxs, hx⟩
    · exact h
    · rw [verifyChain, verifyFrom_stop hxs hx] at hv
      cases hv
  · intro h
    rw [verifyChain, h.verifyFrom]

/-- **Where the verifier points.** The broken index is that of the first entry that does
not link to what comes before it. -/
theorem verifyChain_brokenAt_iff {i : Nat} : (verifyChain sha256 entries).brokenAtIndex = some i ↔
    Linked sha256 none (entries.take i) ∧
      ∃ entry, entries[i]? = some entry ∧ ¬ Links sha256 (chainHead (entries.take i)) entry := by
  constructor
  · intro hb
    rcases linked_or_stop sha256 none entries with h | ⟨xs, x, ys, rfl, hxs, hx⟩
    · rw [verifyChain, h.verifyFrom] at hb
      cases hb
    · rw [verifyChain, verifyFrom_stop hxs hx, Nat.zero_add] at hb
      cases hb
      rw [Option.or_none] at hx
      rw [List.take_left]
      exact ⟨hxs, x, by simp, hx⟩
  · rintro ⟨hxs, e, he, hl⟩
    obtain ⟨hi, rfl⟩ := List.getElem?_eq_some_iff.1 he
    have hsplit : entries.take i ++ entries[i] :: entries.drop (i + 1) = entries := by
      rw [List.getElem_cons_drop, List.take_append_drop]
    rw [← hsplit, verifyChain, verifyFrom_stop hxs (by rwa [Option.or_none]), List.length_take]
    simp [Nat.min_eq_left hi.le]

theorem verifyChain_valid_iff_unbroken : (verifyChain sha256 entries).valid = true ↔
    ¬ ∃ i, Linked sha256 none (entries.take i) ∧
      ∃ entry, entries[i]? = some entry ∧ ¬ Links sha256 (chainHead (entries.take i)) entry := by
  simp only [← verifyChain_brokenAt_iff, verifyChain_valid_iff]
  constructor
  · rintro h ⟨i, hi⟩
    rw [verifyChain, h.verifyFrom] at hi
    cases hi
  · intro h
    by_contra hn
    rcases linked_or_stop sha256 none entries with hl | ⟨xs, x, ys, rfl, hxs, hx⟩
    · exact hn hl
    · exact h ⟨_, by rw [verifyChain, verifyFrom_stop hxs hx]⟩

/-! ## Digests without collisions -/

/-- One digest comes from one content, after one hash. -/
theorem hashPosting_injective (hinj : Function.Injective sha256) {prev prev' : Option String}
    {content content' : PostingContent} (hc : content.Plain) (hc' : content'.Plain)
    (h : hashPosting sha256 prev content = hashPosting sha256 prev' content') :
    prev.getD "" = prev'.getD "" ∧ content = content' := by
  have parts : ∀ c : PostingContent, c.Plain → ∀ t ∈ [c.transactionId, c.accountId, toString c.amount,
      toString c.balanceAfter], Free '|' t := by
    intro c hc t ht
    have printed : ∀ n : Int, Free '|' (toString n) := free_toString (by decide) (by decide)
    simp only [List.mem_cons, List.not_mem_nil, or_false] at ht
    rcases ht with rfl | rfl | rfl | rfl
    exacts [hc.1, hc.2, printed _, printed _]
  have hsep : "|".toList = ['|'] := rfl
  have hjoin := hinj h
  obtain ⟨hprev, hrest⟩ := join_cons_injective hsep (by rfl) (parts content hc) (parts content' hc') hjoin
  simp only [List.cons.injEq, Int.toString_eq_repr, Int.repr_inj, and_true] at hrest
  obtain ⟨htid, haid, hamount, hbalance⟩ := hrest
  refine ⟨hprev, ?_⟩
  cases content
  cases content'
  exact PostingContent.mk.injEq .. ▸ ⟨htid, haid, hamount, hbalance⟩

/-- **A chain is determined by its head.** -/
theorem Linked.unique (hd : Digest sha256) (hx : Linked sha256 none xs) (hy : Linked sha256 none ys)
    (hpx : ∀ e ∈ xs, e.content.Plain) (hpy : ∀ e ∈ ys, e.content.Plain) (h : chainHead xs = chainHead ys) : xs = ys := by
  induction xs using List.reverseRecOn generalizing ys with
  | nil =>
    cases ys using List.reverseRecOn with
    | nil => rfl
    | append_singleton ys f => rw [chainHead_snoc] at h; cases h
  | append_singleton xs e ih =>
    cases ys using List.reverseRecOn with
    | nil => rw [chainHead_snoc] at h; cases h
    | append_singleton ys f =>
      obtain ⟨hxs, hprev, hhash⟩ := linked_snoc.1 hx
      obtain ⟨hys, hprev', hhash'⟩ := linked_snoc.1 hy
      rw [chainHead_snoc, chainHead_snoc, Option.some.injEq] at h
      obtain ⟨hgetD, hcontent⟩ := hashPosting_injective hd.injective (hpx e (by simp)) (hpy f (by simp))
        (hhash.symm.trans (h.trans hhash'))
      -- no digest is the text a missing hash is written as
      have hheads : chainHead xs = chainHead ys := by
        cases hxe : chainHead xs with
        | none =>
          cases hye : chainHead ys with
          | none => rfl
          | some hash =>
            obtain ⟨text, rfl⟩ := hys.head hash hye
            rw [hxe, hye] at hgetD
            exact absurd hgetD.symm (hd.nonempty text)
        | some hash =>
          obtain ⟨text, rfl⟩ := hxs.head hash hxe
          cases hye : chainHead ys with
          | none => rw [hxe, hye] at hgetD; exact absurd hgetD (hd.nonempty text)
          | some hash' => rw [hxe, hye] at hgetD; exact congrArg some hgetD
      obtain rfl := ih hxs hys (fun e he => hpx e (by simp [he])) (fun e he => hpy e (by simp [he])) hheads
      have hentry : e = f := by
        cases e
        cases f
        simp_all
      rw [hentry]

/-! ## Two chains, two audits -/

/-- The postings of an account as the auditor's chain, in `seq` order. -/
def auditEntries (t : Tables) (u : Uuid) : List ChainEntry :=
  (Tables.bySeq (t.postingsFor u)).map AuditService.chainEntry

theorem Uuid.free_text (u : Uuid) : Free '|' u.text := by
  intro hc
  rcases uuidPattern_chars u.canonical _ hc with h | h
  · cases h
  · revert h
    decide

/-- Ids read from uuid columns hold no separator. -/
theorem auditEntries_plain {t : Tables} {u : Uuid} : ∀ e ∈ auditEntries t u, e.content.Plain := by
  intro e he
  obtain ⟨p, -, rfl⟩ := List.mem_map.1 he
  exact ⟨p.transactionId.free_text, p.accountId.free_text⟩

/-- A report on a chain that verifies up to the head on record. -/
theorem report_matches_iff {account : Account} {t : Tables} {u : Uuid} :
    ((AuditService.report sha256 account (Tables.bySeq (t.postingsFor u)) (t.balances.get? u)).chainValid = true ∧
      (AuditService.report sha256 account (Tables.bySeq (t.postingsFor u)) (t.balances.get? u)).headMatches = true) ↔
    Linked sha256 none (auditEntries t u) ∧
      chainHead (auditEntries t u) = (t.balances.get? u).bind BalanceRow.chainHash := by
  have hhead : chainHead (auditEntries t u) = (Tables.bySeq (t.postingsFor u)).getLast?.map PostingRow.hash := by
    rw [chainHead, auditEntries, List.getLast?_map, Option.map_map]
    rfl
  rw [hhead, ← verifyChain_valid_iff, AuditService.report, decide_eq_true_eq]
  rfl

/-- **Tamper evidence.** Two chains that verify and end in one hash are the same chain.
Postings of an account that verified, changed in any way under the same chain head, do not
verify or do not lead to that head. -/
theorem tamper_evident (hd : Digest sha256) :
    (∀ xs ys : List ChainEntry, (∀ e ∈ xs, e.content.Plain) → (∀ e ∈ ys, e.content.Plain) →
      (verifyChain sha256 xs).valid = true → (verifyChain sha256 ys).valid = true → chainHead xs = chainHead ys →
      xs = ys) ∧
    ∀ (t t' : Tables) (text : String) (u : Uuid) (row : AccountRow) (report : AccountAuditReport),
      Names t text u row → postgres.read t (AuditService.verifyAccount sha256 text) = .ok (.ok report) →
      report.chainValid = true → report.headMatches = true → t'.accounts.get? u = some row →
      (t'.balances.get? u).bind BalanceRow.chainHash = (t.balances.get? u).bind BalanceRow.chainHash →
      auditEntries t' u ≠ auditEntries t u →
      ∃ report', postgres.read t' (AuditService.verifyAccount sha256 text) = .ok (.ok report') ∧
        (report'.chainValid = false ∨ report'.headMatches = false) := by
  constructor
  · intro xs ys hpx hpy hx hy hhead
    exact (verifyChain_valid_iff.1 hx).unique hd (verifyChain_valid_iff.1 hy) hpx hpy hhead
  · intro t t' text u row report hnames hread hvalid hhead hrow hrecord hchanged
    obtain ⟨account, hdom, rfl⟩ := verifyAccount_account hnames hread
    obtain ⟨hlinked, hlast⟩ := report_matches_iff.1 ⟨hvalid, hhead⟩
    refine ⟨_, verifyAccount_read ⟨hnames.1, hrow⟩ hdom, ?_⟩
    by_contra hclean
    rw [not_or, Bool.not_eq_false, Bool.not_eq_false] at hclean
    obtain ⟨hlinked', hlast'⟩ := report_matches_iff.1 hclean
    apply hchanged
    exact hlinked'.unique hd hlinked auditEntries_plain auditEntries_plain (hlast'.trans (hrecord.trans hlast.symm))

/-! A ledger on fixed inputs, and the same with one posting changed. -/

namespace Sample

def tamperingDigests : List (String × String) :=
  spendingDigests ++
    [("|".intercalate ["alice", alice.text, usd.text, "15", "USD"],
        "14ac35cedf9791b3f483da9f200d0fae70ce0bc4f77968065f0d421359eb73fa"),
      ("|".intercalate ["8afa10e9c772af953453406bfe5586244a773f021148e58368e48c79535a38c1", third.text, alice.text,
          "-15", "60"],
        "66927a9d95a2ca10e0c273f4c6aa4e49afb58f25bf573cd97fabe0c81ff42acb"),
      ("|".intercalate ["76c65b8ae65f31ab98eef1bbe898da7ed79f2836260f0ade5442640d7975a778", third.text, usd.text,
          "15", "-60"],
        "e1155e6d9fc6c3d282566b2bbbd3f8ed05476a5d490ee9e88720cfed6d3a6b3d"),
      ("|".intercalate ["f8ec3841310aa3d2ace6997273f3b833bb4c8334d8a31e6b1d1fa8e7839da3ef", second.text, alice.text,
          "-20", "80"],
        "53dedd3cec8a86f4f6a2aced1ed502e92b4e886e2f1580c80b8e29119270bb4f")]

theorem digest_tampering : Digest (digest tamperingDigests) where
  injective := digest_injective (by decide +kernel) (by decide +kernel)
  nonempty := by
    intro text h
    have known : ∀ e ∈ tamperingDigests, e.2 ≠ "" := by decide +kernel
    unfold digest at h
    cases hl : tamperingDigests.lookup text with
    | none =>
      rw [hl] at h
      have := congrArg String.toList h
      rw [Option.getD_none, String.toList_append] at this
      cases this
    | some value =>
      obtain ⟨before, after, heq, -⟩ := List.lookup_eq_some_iff.1 hl
      rw [hl] at h
      exact known (text, value) (by rw [heq]; simp) h

/-- Alice pays a second time. -/
def spendAgain : Request := .transfer (pay alice.text usd.text "15" "alice") third

def spentWorld : postgres.World := after tamperingDigests [openAlice, fundAlice, spendAlice, spendAgain]

def secondEntry : ChainEntry :=
  ⟨some "f8ec3841310aa3d2ace6997273f3b833bb4c8334d8a31e6b1d1fa8e7839da3ef",
    "8afa10e9c772af953453406bfe5586244a773f021148e58368e48c79535a38c1", ⟨second.text, alice.text, -25, 75⟩⟩

/-- Alice's three postings as the chain they make. -/
def spentChain : List ChainEntry :=
  [⟨none, "f8ec3841310aa3d2ace6997273f3b833bb4c8334d8a31e6b1d1fa8e7839da3ef", ⟨deposit.text, alice.text, 100, 100⟩⟩,
    secondEntry,
    ⟨some "8afa10e9c772af953453406bfe5586244a773f021148e58368e48c79535a38c1",
      "66927a9d95a2ca10e0c273f4c6aa4e49afb58f25bf573cd97fabe0c81ff42acb", ⟨third.text, alice.text, -15, 60⟩⟩]

def tamperedContent : PostingContent := ⟨second.text, alice.text, -20, 80⟩

/-- Five taken off what she first paid, under the hash it was stored with. -/
def tampered : Tables :=
  { spentWorld.db with
    postings := spentWorld.db.postings.map fun p =>
      if p.accountId = alice ∧ p.transactionId = second then { p with amount := -20, balanceAfter := 80 } else p }

/-- The chain of the tampered postings. -/
def tamperedChain : List ChainEntry := spentChain.set 1 { secondEntry with content := tamperedContent }

def aliceRow : AccountRow := ⟨.user, "USD", some 0, none, some "alice", 0⟩

/-- Alice's account as the auditor reads it. -/
def aliceAccount : Account := ⟨⟨alice.text⟩, .user, ⟨some "USD", some 2⟩, some 0, none, some "alice", 0⟩

theorem aliceRow_toDomain : AccountsRepository.toDomain alice aliceRow = .ok aliceAccount := by
  have hof : Currency.of "USD" = .ok ⟨some "USD", some 2⟩ := by decide
  rw [AccountsRepository.toDomain, aliceRow, hof]
  rfl

theorem spentChain_valid : (∀ e ∈ spentChain, e.content.Plain) ∧
    (verifyChain (digest tamperingDigests) spentChain).valid = true := by decide +kernel

/-- The audit of the untampered postings, and the rows both audits read. -/
theorem spentWorld_audit : (verifyChain (digest tamperingDigests) (auditEntries spentWorld.db alice)).valid = true ∧
    chainHead (auditEntries spentWorld.db alice) = chainHead spentChain ∧
    spentWorld.db.accounts.get? alice = some aliceRow ∧ tampered.accounts.get? alice = some aliceRow ∧
    (spentWorld.db.balances.get? alice).bind BalanceRow.chainHash = chainHead spentChain ∧
    (tampered.balances.get? alice).bind BalanceRow.chainHash = chainHead spentChain ∧
    auditEntries tampered alice = tamperedChain ∧
    ((Tables.bySeq (tampered.postingsFor alice))[1]?).map PostingRow.seq = some 3 := by decide +kernel

end Sample

theorem tamper_evident_spent : auditEntries Sample.spentWorld.db Sample.alice = Sample.spentChain ∧
    ∃ report, postgres.read Sample.tampered
        (AuditService.verifyAccount (Sample.digest Sample.tamperingDigests) Sample.alice.text) = .ok (.ok report) ∧
      (report.chainValid = false ∨ report.headMatches = false) := by
  obtain ⟨hverified, hhead, hrow, hrow', hrecord, hrecord', hchanged, -⟩ := Sample.spentWorld_audit
  obtain ⟨hplain, hvalid⟩ := Sample.spentChain_valid
  have hentries : auditEntries Sample.spentWorld.db Sample.alice = Sample.spentChain :=
    (tamper_evident Sample.digest_tampering).1 _ _ auditEntries_plain hplain hverified hvalid hhead
  have hnames : Names Sample.spentWorld.db Sample.alice.text Sample.alice Sample.aliceRow :=
    ⟨Sample.alice.parse?_text, hrow⟩
  -- the untampered chain verifies up to the head on record
  have hmatches : Linked (Sample.digest Sample.tamperingDigests) none (auditEntries Sample.spentWorld.db Sample.alice) ∧
      chainHead (auditEntries Sample.spentWorld.db Sample.alice) =
        (Sample.spentWorld.db.balances.get? Sample.alice).bind BalanceRow.chainHash := by
    rw [hentries, hrecord]
    exact ⟨verifyChain_valid_iff.1 hvalid, rfl⟩
  obtain ⟨hchain, hmatch⟩ := (@report_matches_iff _ Sample.aliceAccount _ _).2 hmatches
  have hne : auditEntries Sample.tampered Sample.alice ≠ auditEntries Sample.spentWorld.db Sample.alice := by
    rw [hentries, hchanged]
    decide
  refine ⟨hentries, ?_⟩
  exact (tamper_evident Sample.digest_tampering).2 Sample.spentWorld.db Sample.tampered Sample.alice.text Sample.alice
    Sample.aliceRow _ hnames (verifyAccount_read hnames Sample.aliceRow_toDomain) hchain hmatch hrow'
    (hrecord'.trans hrecord.symm) hne

/-- A change of one entry: of the hash it links to, of its own hash, or of its content. -/
def Tampered (original changed : ChainEntry) : Prop :=
  changed.prevHash ≠ original.prevHash ∨
    (changed.prevHash = original.prevHash ∧ changed.content = original.content ∧ changed.hash ≠ original.hash) ∨
    (changed.prevHash = original.prevHash ∧ changed.hash = original.hash ∧ changed.content ≠ original.content)

/-- A tampered entry does not link to what its original linked to. -/
theorem Tampered.not_links (hinj : Function.Injective sha256) {original changed : ChainEntry}
    (ht : Tampered original changed) (ho : original.content.Plain) (hc : changed.content.Plain)
    (h : Links sha256 prev original) : ¬ Links sha256 prev changed := by
  rintro ⟨hprev, hhash⟩
  rcases ht with hne | ⟨-, hcontent, hne⟩ | ⟨-, heq, hne⟩
  · exact hne (hprev.trans h.1.symm)
  · exact hne (by rw [hhash, h.2, hcontent])
  · rw [hhash, h.2] at heq
    exact hne (hashPosting_injective hinj hc ho heq).2

/-- A chain tampered with at `i` breaks there, whatever follows. -/
theorem verifyChain_tampered (hinj : Function.Injective sha256) {i : Nat} {original changed : ChainEntry}
    (hx : Linked sha256 none xs) (hxi : xs[i]? = some original) (hyi : ys[i]? = some changed)
    (hsame : ys.take i = xs.take i) (ho : original.content.Plain) (hc : changed.content.Plain)
    (ht : Tampered original changed) : verifyChain sha256 ys = ⟨false, some i⟩ := by
  obtain ⟨hi, rfl⟩ := List.getElem?_eq_some_iff.1 hxi
  have hsplit : xs.take i ++ xs[i] :: xs.drop (i + 1) = xs := by
    rw [List.getElem_cons_drop, List.take_append_drop]
  rw [← hsplit, linked_append, Option.or_none] at hx
  have hstop : (verifyChain sha256 ys).brokenAtIndex = some i := verifyChain_brokenAt_iff.2
    ⟨hsame.symm ▸ hx.1, changed, hyi, hsame.symm ▸ ht.not_links hinj ho hc hx.2.1⟩
  have hinvalid : (verifyChain sha256 ys).valid = false := by
    by_contra hv
    rw [Bool.not_eq_false, verifyChain_valid_iff] at hv
    rw [verifyChain, hv.verifyFrom] at hstop
    cases hstop
  calc verifyChain sha256 ys = ⟨(verifyChain sha256 ys).valid, (verifyChain sha256 ys).brokenAtIndex⟩ := rfl
    _ = ⟨false, some i⟩ := by rw [hinvalid, hstop]

/-- **The verifier points at the first tampered row**, by its index in the chain and by the
`seq` in the report on the account; and for every list, it points at the first entry that
does not link to the entries before it. -/
theorem verifier_pointsAt (hinj : Function.Injective sha256) :
    (∀ (xs ys : List ChainEntry) (i : Nat) (original changed : ChainEntry), (verifyChain sha256 xs).valid = true →
      xs[i]? = some original → ys[i]? = some changed → ys.take i = xs.take i → original.content.Plain →
      changed.content.Plain → Tampered original changed → verifyChain sha256 ys = ⟨false, some i⟩) ∧
    (∀ (t : Tables) (text : String) (u : Uuid) (row : AccountRow) (report : AccountAuditReport)
      (xs : List ChainEntry) (i : Nat) (original : ChainEntry) (changed : PostingRow), Names t text u row →
      postgres.read t (AuditService.verifyAccount sha256 text) = .ok (.ok report) →
      (verifyChain sha256 xs).valid = true → xs[i]? = some original →
      (Tables.bySeq (t.postingsFor u))[i]? = some changed → (auditEntries t u).take i = xs.take i →
      original.content.Plain → Tampered original (AuditService.chainEntry changed) →
      report.chainValid = false ∧ report.brokenAtSeq = some changed.seq) ∧
    (∀ (entries : List ChainEntry) (i : Nat), (verifyChain sha256 entries).brokenAtIndex = some i ↔
      (verifyChain sha256 (entries.take i)).valid = true ∧
        ∃ entry, entries[i]? = some entry ∧ ¬ Links sha256 (chainHead (entries.take i)) entry) ∧
    ∀ entries : List ChainEntry, (verifyChain sha256 entries).valid = true ↔
      ¬ ∃ i, (verifyChain sha256 (entries.take i)).valid = true ∧
        ∃ entry, entries[i]? = some entry ∧ ¬ Links sha256 (chainHead (entries.take i)) entry := by
  refine ⟨?_, ?_, ?_, ?_⟩
  · intro xs ys i original changed hx hxi hyi hsame ho hc ht
    exact verifyChain_tampered hinj (verifyChain_valid_iff.1 hx) hxi hyi hsame ho hc ht
  · intro t text u row report xs i original changed hnames hread hx hxi hyi hsame ho ht
    obtain ⟨account, -, rfl⟩ := verifyAccount_account hnames hread
    have hentry : (auditEntries t u)[i]? = some (AuditService.chainEntry changed) := by
      rw [auditEntries, List.getElem?_map, hyi]
      rfl
    have hverify : verifyChain sha256 ((Tables.bySeq (t.postingsFor u)).map AuditService.chainEntry) = ⟨false, some i⟩ :=
      verifyChain_tampered hinj (verifyChain_valid_iff.1 hx) hxi hentry hsame ho
        (auditEntries_plain _ (List.mem_of_getElem? hentry)) ht
    constructor
    · simp only [AuditService.report, hverify]
    · simp only [AuditService.report, hverify, Option.bind_some, hyi, Option.map_some]
  · intro entries i
    rw [verifyChain_valid_iff, verifyChain_brokenAt_iff]
  · intro entries
    have htake : ∀ n, (verifyChain sha256 (entries.take n)).valid = true ↔ Linked sha256 none (entries.take n) :=
      fun _ => verifyChain_valid_iff
    simp only [htake]
    exact verifyChain_valid_iff_unbroken

/-- The change to Alice's second posting is found at its `seq`, with a posting before it and
one behind it. -/
theorem verifier_pointsAt_spent :
    verifyChain (Sample.digest Sample.tamperingDigests) Sample.tamperedChain = ⟨false, some 1⟩ ∧
    ∃ report, postgres.read Sample.tampered
        (AuditService.verifyAccount (Sample.digest Sample.tamperingDigests) Sample.alice.text) = .ok (.ok report) ∧
      report.chainValid = false ∧ report.brokenAtSeq = some 3 := by
  obtain ⟨-, -, -, hrow, -, -, hchanged, hseq⟩ := Sample.spentWorld_audit
  obtain ⟨-, hvalid⟩ := Sample.spentChain_valid
  have hpoints := verifier_pointsAt Sample.digest_tampering.injective
  have hplain : ∀ amount balance, PostingContent.Plain ⟨Sample.second.text, Sample.alice.text, amount, balance⟩ :=
    fun _ _ => ⟨Sample.second.free_text, Sample.alice.free_text⟩
  have hsame : Sample.tamperedChain.take 1 = Sample.spentChain.take 1 := rfl
  have htampered : Tampered Sample.secondEntry { Sample.secondEntry with content := Sample.tamperedContent } :=
    .inr (.inr ⟨rfl, rfl, by simp [Sample.secondEntry, Sample.tamperedContent]⟩)
  constructor
  · exact hpoints.1 Sample.spentChain Sample.tamperedChain 1 _ _ hvalid rfl rfl hsame (hplain ..) (hplain ..) htampered
  · have hnames : Names Sample.tampered Sample.alice.text Sample.alice Sample.aliceRow := ⟨Sample.alice.parse?_text, hrow⟩
    have hread : postgres.read Sample.tampered
        (AuditService.verifyAccount (Sample.digest Sample.tamperingDigests) Sample.alice.text) = _ :=
      verifyAccount_read hnames Sample.aliceRow_toDomain
    obtain ⟨changed, hrow, hseq⟩ := Option.map_eq_some_iff.1 hseq
    have hentry : some (AuditService.chainEntry changed) = Sample.tamperedChain[1]? := by
      rw [← hchanged, auditEntries, List.getElem?_map, hrow, Option.map_some]
    have hbefore : (auditEntries Sample.tampered Sample.alice).take 1 = Sample.spentChain.take 1 := by rw [hchanged, hsame]
    have hposting : Tampered Sample.secondEntry (AuditService.chainEntry changed) := by
      rw [Option.some.inj hentry]
      exact htampered
    obtain ⟨hbroken, hat⟩ := hpoints.2.1 Sample.tampered Sample.alice.text Sample.alice Sample.aliceRow _
      Sample.spentChain 1 _ changed hnames hread hvalid rfl hrow hbefore (hplain ..) hposting
    exact ⟨_, hread, hbroken, hat.trans (congrArg some hseq)⟩

end MiniLedger
