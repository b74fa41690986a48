import MiniLedger.Ledger.BalanceFold
import MiniLedger.Ledger.Tamper

/-!
# How a posting extends the chains

Whatever tables the chains of all accounts verify on, they verify on what `post` leaves:
each account has gained one entry for each leg on it, in the order of the legs, linked to
what was there. The trail the loop leaves under a text is the chain the auditor reads under
the uuid, in the order of the sequence.
-/

namespace MiniLedger

open Collections Sessions

/-- The balance row as the auditor reads it. -/
def stateOf (t : Tables) (u : Uuid) : BalanceRow := (t.balances.get? u).getD ⟨0, none⟩

/-- The chain of an account verifies, leads to the head on record and adds up to the balance. -/
structure ChainHolds (sha256 : String → String) (t : Tables) (u : Uuid) : Prop where
  verified : (verifyChain sha256 (auditEntries t u)).valid = true
  head : chainHead (auditEntries t u) = (stateOf t u).chainHash
  sum : (stateOf t u).balance = ((auditEntries t u).map fun e => e.content.amount).sum
  last : (stateOf t u).balance = ((auditEntries t u).getLast?.map fun e => e.content.balanceAfter).getD 0

/-- What `post` did to the chain of an account. -/
structure Grown (sha256 : String → String) (t t' : Tables) (journal : JournalTransaction) (u : Uuid) : Prop where
  /-- an entry for each leg on the account, in the order of the legs, each linked -/
  touched : ∃ new, auditEntries t' u = auditEntries t u ++ new ∧
    (new.map fun e => (e.content.transactionId, e.content.accountId, e.content.amount)) =
      ((journal.postings.filter fun p => p.accountId.value = u.text).map fun p =>
        (journal.id, p.accountId.value, p.amount.amount)) ∧
    Linked sha256 (chainHead (auditEntries t u)) new
  untouched : (∀ p ∈ journal.postings, Uuid.parse? p.accountId.value ≠ some u) →
    auditEntries t' u = auditEntries t u ∧ t'.balances.get? u = t.balances.get? u

theorem Trail.linked {sha256 : String → String} {balance balance' : Int} {prev last : Option String}
    {entries : List ChainEntry} (h : Trail sha256 balance prev entries balance' last) : Linked sha256 prev entries := by
  induction entries generalizing balance prev with
  | nil => trivial
  | cons e es ih => exact ⟨⟨h.2.1, h.2.2.1⟩, ih h.2.2.2⟩

/-- The entries under a text are those of its legs, in their order. -/
theorem LedgerPoster.entriesOf_contents (transactionId k : String) {ps : List Posting} {lines : List PostingLine}
    (hlen : lines.length = ps.length) :
    ((entriesOf transactionId ps lines k).map fun e => (e.content.transactionId, e.content.accountId, e.content.amount)) =
      (ps.filter fun p => p.accountId.value = k).map fun p => (transactionId, p.accountId.value, p.amount.amount) := by
  induction ps generalizing lines with
  | nil => simp [entriesOf]
  | cons p ps ih =>
    cases lines with
    | nil => simp at hlen
    | cons l ls =>
      have hls : ls.length = ps.length := Nat.succ.inj hlen
      have ih := ih hls
      by_cases he : p.accountId.value = k
      · subst he
        rw [entriesOf_cons_self, List.map_cons, ih, List.filter_cons_of_pos (by simp), List.map_cons]
      · rw [entriesOf_cons_of_ne he, ih, List.filter_cons_of_neg (by simpa using he)]

variable {sha256 : String → String} {db t t' : Tables} {ws ws' : List Write} {journal : JournalTransaction}
  {currency : Currency} {options : PostOptions} {b : Booking} {u : Uuid}

/-- A chain that holds, followed by the trail of new entries from its state on, holds. -/
theorem ChainHolds.extend (h : ChainHolds sha256 t u) {new : List ChainEntry} {s' : BalanceRow}
    (trail : Trail sha256 (stateOf t u).balance (stateOf t u).chainHash new s'.balance s'.chainHash)
    (hentries : auditEntries t' u = auditEntries t u ++ new) (hs' : t'.balances.get? u = some s') :
    ChainHolds sha256 t' u := by
  have hstate : stateOf t' u = s' := by rw [stateOf, hs', Option.getD_some]
  obtain ⟨hhead, hlast⟩ := trail.last_eq
  have hsum := trail.sum
  constructor
  · rw [hentries, verifyChain_valid_iff, linked_append, Option.or_none, h.head]
    exact ⟨verifyChain_valid_iff.1 h.verified, trail.linked⟩
  · rw [hentries, hstate, hhead, chainHead, List.getLast?_append, Option.map_or, ← h.head]
    rfl
  · rw [hentries, hstate, List.map_append, List.sum_append, ← h.sum]
    exact hsum
  · rw [hentries, hstate, List.getLast?_append, hlast]
    cases hnew : new.getLast? with
    | none => rw [Option.none_or, ← h.last]; rfl
    | some e => rfl

/-- The auditor's chain after a booking, whose rows come above the ones there in `seq`. -/
theorem Booked.auditEntries_eq (hb : Booked t t' b) (hasc : Ascending b.rows)
    (habove : ∀ p ∈ t.postings, ∀ q ∈ b.rows, p.seq < q.seq) (u : Uuid) :
    auditEntries t' u = auditEntries t u ++ (b.rows.filter fun p => p.accountId = u).map AuditService.chainEntry := by
  have hpostings : t'.postingsFor u = t.postingsFor u ++ b.rows.filter fun p => p.accountId = u := by
    rw [Tables.postingsFor, hb.postings, List.filter_append]
    rfl
  rw [auditEntries, auditEntries, hpostings, bySeq_append, List.map_append]
  · exact hasc.sublist List.filter_sublist
  · intro p hp q hq
    exact habove p (List.mem_of_mem_filter hp) q (List.mem_of_mem_filter hq)

/-- A booking of canonical ids keeps the chains. -/
theorem Booked.chains (hb : Booked t t' b) (hv : b.Valid sha256 t journal currency options) (hid : Canonical journal.id)
    (hc : ∀ p ∈ journal.postings, Canonical p.accountId.value) (hasc : Ascending b.rows)
    (habove : ∀ p ∈ t.postings, ∀ q ∈ b.rows, p.seq < q.seq) (h : ChainHolds sha256 t u) :
    ChainHolds sha256 t' u ∧ Grown sha256 t t' journal u := by
  have hentries := hb.auditEntries_eq hasc habove u
  rw [rows_entries hv.rows (by
    intro v hm
    obtain ⟨p, hp, _, -, rfl⟩ := exists_of_mem_zipWith hm
    exact ⟨hid, hc p hp⟩)] at hentries
  have hcontents := LedgerPoster.entriesOf_contents journal.id u.text (LedgerPoster.postLegs_length hv.legs)
  by_cases hleg : ∃ p ∈ journal.postings, Uuid.parse? p.accountId.value = some u
  · obtain ⟨p, hp, hu⟩ := hleg
    obtain ⟨s, s', hs, hlock, hrun, hs'⟩ := hb.touched hv (oneSpelling_of_canonical hc) hp hu
    obtain ⟨s'', hs'', trail⟩ := LedgerPoster.postLegs_trail hv.legs hlock
    obtain rfl : s' = s'' := Option.some.inj (hrun.symm.trans hs'')
    have hstate : stateOf t u = s := by rw [stateOf, hs, Option.getD_some]
    rw [← Uuid.text_of_canonical (hc p hp) hu, ← hstate] at trail
    refine ⟨h.extend trail hentries hs', ⟨_, hentries, hcontents, ?_⟩, fun hnone => absurd hu (hnone p hp)⟩
    rw [h.head]
    exact trail.linked
  · -- no leg on the account, so no new entry and the same balance row
    have hnone : ∀ p ∈ journal.postings, Uuid.parse? p.accountId.value ≠ some u := fun p hp hu => hleg ⟨p, hp, hu⟩
    have hempty : (journal.postings.filter fun p => p.accountId.value = u.text) = [] := by
      refine List.filter_eq_nil_iff.2 fun p hp htext => hnone p hp ?_
      rw [of_decide_eq_true htext, u.parse?_text]
    have hnil : LedgerPoster.entriesOf journal.id journal.postings b.legs.lines u.text = [] := by
      rw [hempty, List.map_nil, List.map_eq_nil_iff] at hcontents
      exact hcontents
    have hsame : t'.balances.get? u = t.balances.get? u := hb.untouched hv hnone
    have hkept : auditEntries t' u = auditEntries t u := by
      rw [hentries]
      show auditEntries t u ++ LedgerPoster.entriesOf journal.id journal.postings b.legs.lines u.text = _
      rw [hnil, List.append_nil]
    have hstate : stateOf t' u = stateOf t u := by rw [stateOf, hsame, stateOf]
    refine ⟨⟨?_, ?_, ?_, ?_⟩, ⟨_, hentries, hcontents, ?_⟩, fun _ => ⟨hkept, hsame⟩⟩
    · rw [hkept]; exact h.verified
    · rw [hkept, hstate]; exact h.head
    · rw [hkept, hstate]; exact h.sum
    · rw [hkept, hstate]; exact h.last
    · show Linked sha256 _ (LedgerPoster.entriesOf journal.id journal.postings b.legs.lines u.text)
      rw [hnil]
      trivial

/-- **Posting extends every chain.** If the chains of all accounts hold on the tables `post`
sees, they hold on those it leaves, each grown by the legs on its account; `n` is the next
value of the sequence. -/
theorem post_extends {r : TransferReceipt} {n m : Nat} (hseq : ∀ p ∈ (postgres.view db ws).postings, p.seq < n)
    (hholds : ∀ u row, (postgres.view db ws).accounts.get? u = some row → ChainHolds sha256 (postgres.view db ws) u)
    (hid : Canonical journal.id) (hc : ∀ p ∈ journal.postings, Canonical p.accountId.value)
    (hrun : postgres.run db (LedgerPoster.post sha256 journal currency options) ws n = (.ok (r, ws'), m)) :
    ∀ u row, (postgres.view db ws').accounts.get? u = some row →
      ChainHolds sha256 (postgres.view db ws') u ∧ Grown sha256 (postgres.view db ws) (postgres.view db ws') journal u := by
  obtain ⟨b, hv, -, rfl⟩ := post_yields (Engine.yields_of_run (n := n) (by rw [hrun]))
  have hfrom : postgres.run db (LedgerPoster.post sha256 journal currency options) (ws ++ []) n = (.ok (r, ws ++ b.writes), m) := by
    rw [List.append_nil, hrun]
  obtain ⟨new, hnew, hasc, habove⟩ := run_drawn hfrom (drawn_nil n) le_rfl
  obtain rfl : b.writes = new := List.append_cancel_left hnew
  rw [b.writes_posting] at hasc habove
  have hb := booked_writes (postgres.view db ws) b
  intro u row hrow
  rw [view_append] at hrow ⊢
  rw [hb.accounts] at hrow
  exact hb.chains hv hid hc hasc (fun p hp q hq => (hseq p hp).trans_le (habove q hq).1) (hholds u row hrow)

/-! ## A run on fixed inputs -/

namespace Sample

def splitDigests : List (String × String) :=
  [("|".intercalate ["", deposit.text, usd.text, "-150", "-150"],
      "1fa0b869d258309e846eb1353c4f5d9c6b1893bd1f4dcb74a98096044f860600"),
    ("|".intercalate ["", deposit.text, alice.text, "100", "100"],
      "f8ec3841310aa3d2ace6997273f3b833bb4c8334d8a31e6b1d1fa8e7839da3ef"),
    ("|".intercalate ["f8ec3841310aa3d2ace6997273f3b833bb4c8334d8a31e6b1d1fa8e7839da3ef", deposit.text, alice.text,
        "50", "150"], "be3bb841e83d7c9f1c4acdac7cb5266cff19f7d1194e1d66e6c89b18ab4f121c")]

/-- A hundred and fifty dollars to Alice in two legs. -/
def split : JournalTransaction where
  id := deposit.text
  currency := dollars
  postings := [⟨⟨usd.text⟩, ⟨-150, dollars⟩⟩, ⟨⟨alice.text⟩, ⟨100, dollars⟩⟩, ⟨⟨alice.text⟩, ⟨50, dollars⟩⟩]
  nonempty := by simp
  sameCurrency := by simp
  nonzero := by decide
  balanced := by decide

/-- On the tables before the deposit every chain is empty. -/
theorem opened_chains (sha256 : String → String) (u : Uuid) : ChainHolds sha256 openedWorld.db u := by
  have h : openedWorld.db.postings = [] ∧ ∀ e ∈ openedWorld.db.balances.entries, e.2 = ⟨0, none⟩ := by decide +kernel
  have hentries : auditEntries openedWorld.db u = [] := by
    rw [auditEntries, Tables.postingsFor, h.1]
    rfl
  have hstate : stateOf openedWorld.db u = ⟨0, none⟩ := by
    rw [stateOf]
    cases hg : openedWorld.db.balances.get? u with
    | none => rfl
    | some s => exact h.2 _ (Keyed.get?_eq_some_iff.1 hg)
  constructor
  · rw [hentries]; rfl
  · rw [hentries, hstate]; rfl
  · rw [hentries, hstate]; rfl
  · rw [hentries, hstate]; rfl

end Sample

/-- The rule covers a journal that touches one account twice. -/
theorem post_extends_split : ∃ r ws' m,
    postgres.run Sample.openedWorld.db (LedgerPoster.post (Sample.digest Sample.splitDigests) Sample.split Sample.dollars
      (transferOptions "alice")) [] 1 = (.ok (r, ws'), m) ∧
    ∀ u row, (postgres.view Sample.openedWorld.db ws').accounts.get? u = some row →
      ChainHolds (Sample.digest Sample.splitDigests) (postgres.view Sample.openedWorld.db ws') u ∧
        Grown (Sample.digest Sample.splitDigests) Sample.openedWorld.db (postgres.view Sample.openedWorld.db ws')
          Sample.split u := by
  have h : (postgres.run Sample.openedWorld.db (LedgerPoster.post (Sample.digest Sample.splitDigests) Sample.split
      Sample.dollars (transferOptions "alice")) [] 1).1.toOption.isSome = true ∧
      (∀ p ∈ Sample.openedWorld.db.postings, p.seq < 1) ∧ (∀ p ∈ Sample.split.postings, Canonical p.accountId.value) := by
    decide +kernel
  cases hrun : postgres.run Sample.openedWorld.db (LedgerPoster.post (Sample.digest Sample.splitDigests) Sample.split
      Sample.dollars (transferOptions "alice")) [] 1 with
  | mk out m =>
    rw [hrun] at h
    cases out with
    | error e => cases h.1
    | ok out =>
      exact ⟨out.1, out.2, m, rfl, post_extends h.2.1 (fun u _ _ => Sample.opened_chains _ u)
        Sample.deposit.canonical_text h.2.2 hrun⟩

end MiniLedger
