import MiniLedger.Ledger.Linearizable
import MiniLedger.Ledger.Refinement

/-!
# Many clients, one book

Whatever the interleaving, the committed tables are those of a book that served the requests
in the log one after another, each in one piece and with the answer it was given. A request
that ended in a refusal was refused as the book would have at some place in that order.
-/

namespace MiniLedger

open Bookkeeping Collections Sessions

variable {sha256 : String → String} {t t' db : Tables} {w : postgres.World} {request : Request}

namespace Office

variable (sha256)

/-- The answers to a list of requests, and the office they leave. -/
def run (o : Office) : List Request → List (Except Failure Reply) × Office
  | [] => ([], o)
  | request :: requests =>
    (((o.serve sha256 request).1 :: ((o.serve sha256 request).2.run requests).1),
      ((o.serve sha256 request).2.run requests).2)

theorem run_append (o : Office) (requests more : List Request) :
    o.run sha256 (requests ++ more) =
      ((o.run sha256 requests).1 ++ ((o.run sha256 requests).2.run sha256 more).1,
        ((o.run sha256 requests).2.run sha256 more).2) := by
  induction requests generalizing o with
  | nil => rfl
  | cons request requests ih => simp only [List.cons_append, run, ih]

end Office

/-! ## What stays filed -/

/-- What the controllers let through, with ids as the database prints them. -/
def proper (_ : Tables) (request : Request) : Prop := request.Admitted ∧ request.CanonicalIds

instance : DecidablePred Request.CanonicalIds
  | .open_ .. => isTrue trivial
  | .transfer input _ => inferInstanceAs (Decidable (Canonical input.from_ ∧ Canonical input.to_))
  | .reverse .. => isTrue trivial

theorem Served.each {P : Tables → Request → Prop} {w' : postgres.World} {requests : List Request}
    (h : Served sha256 P w w') (hp : ∀ t, ∀ r ∈ requests, P t r) : Served sha256 P w (MiniLedger.serially sha256 requests w') := by
  induction requests generalizing w' with
  | nil => exact h
  | cons r rs ih =>
    have hr : ∀ t, P t r := fun t => hp t r List.mem_cons_self
    exact ih (.step r h (hr _)) fun t r hmem => hp t r (List.mem_cons_of_mem _ hmem)

/-- The part of `Filed` any commit keeps. -/
structure Kept (sha256 : String → String) (t : Tables) : Prop where
  recorded : Recorded t
  audited : Audited sha256 t
  charted : ∀ u s, t.balances.get? u = some s → (t.accounts.get? u).isSome

theorem Kept.filed (h : Kept sha256 t) (ho : Ordered t.postings) : Filed sha256 t := ⟨h.recorded, h.audited, ho, h.charted⟩

theorem charted_booked {journal : JournalTransaction} {currency : Currency} {options : PostOptions} {b : Booking}
    (h : ∀ u s, t.balances.get? u = some s → (t.accounts.get? u).isSome)
    (hv : b.Valid sha256 t journal currency options) (hb : Booked t t' b) :
    ∀ u s, t'.balances.get? u = some s → (t'.accounts.get? u).isSome := by
  intro u s hs
  rw [hb.accounts]
  rw [hb.balances, Keyed.get?_setAll] at hs
  cases hl : Keyed.latest u b.balances with
  | none =>
    rw [hl, Option.none_or] at hs
    exact h u s hs
  | some s' =>
    obtain ⟨_, -, s₀, -, hs₀, -⟩ := hv.updated (Keyed.mem_of_latest hl)
    exact h u s₀ hs₀

theorem Kept.commit {r : Reply} {ws : List Write} (hp : request.CanonicalIds) (h : Kept sha256 db)
    (hc : Committed sha256 db request r ws) : Kept sha256 (postgres.view db ws) := by
  refine ⟨h.recorded.commit hc, h.audited.commit hp hc, ?_⟩
  cases hc with
  | replayed => exact h.charted
  | transferred currency amount journal b _ hv => exact charted_booked h.charted hv (booked_transfer ..)
  | reversed _ _ _ _ b _ _ _ _ hv => exact charted_booked h.charted hv (booked_writes ..)
  | @opened input id now currency code _ _ _ _ =>
    rw [view_opened]
    intro u s hs
    have hs : (db.balances.set id ⟨0, none⟩).get? u = some s := hs
    show ((db.accounts.set id _).get? u).isSome
    rw [Keyed.get?_set] at hs ⊢
    by_cases hu : u = id
    · rw [if_pos hu]
      rfl
    · rw [if_neg hu] at hs ⊢
      exact h.charted u s hs

theorem kept_migrated (ids : WorldIds) (createdAt : Nat) (entrySize : String → Nat) : Kept sha256 (migrated ids createdAt entrySize).db := by
  refine ⟨recorded_migrated ids createdAt entrySize, audited_migrated ids createdAt entrySize, fun u s hs => ?_⟩
  have hmem : u ∈ (migrated ids createdAt entrySize).db.balances.keys := Keyed.mem_keys_iff.2 ⟨s, hs⟩
  obtain ⟨row, hrow⟩ := Keyed.mem_keys_iff.1 (show u ∈ (migrated ids createdAt entrySize).db.accounts.keys from hmem)
  rw [hrow]
  rfl

theorem Reachable.kept (h : Reachable sha256 proper w) : Kept sha256 w.db := by
  obtain ⟨ids, createdAt, entrySize, hs⟩ := h
  exact hs.invariant (kept_migrated ids createdAt entrySize) fun hp hi hc => hi.commit hp.2 hc

theorem Reachable.filed (h : Reachable sha256 proper w) : Filed sha256 w.db := h.kept.filed h.inOrder.1.ordered

/-- **A request does what the book says**, in every state of a run. -/
theorem reachable_books (hw : Reachable sha256 proper w) (hp : proper w.db request) :
    (serve sha256 request w).1 = (w.db.office.serve sha256 request).1 ∧
      (serve sha256 request w).2.db.office = (w.db.office.serve sha256 request).2 :=
  hw.filed.serve hp.1 hp.2

theorem Sample.proper_after {table : List (String × String)} {requests : List Request}
    (h : ∀ r ∈ requests, r.Admitted ∧ r.CanonicalIds) : Reachable (Sample.digest table) proper (Sample.after table requests) :=
  ⟨Sample.worldIds, 0, Sample.entrySize, Served.refl.each fun _ => h⟩

/-- A deposit: its receipt, and the entry the book has for it. -/
theorem reachable_books_deposit :
    (serve (Sample.digest Sample.fundingDigests) Sample.fundAlice Sample.openedWorld).1.toOption =
        some (.transferred (.ok (some ⟨Sample.deposit.text, some "USD",
          [⟨Sample.usd.text, "-100", "-100"⟩, ⟨Sample.alice.text, "100", "100"⟩]⟩))) ∧
      (serve (Sample.digest Sample.fundingDigests) Sample.fundAlice Sample.openedWorld).2.db.office.book.entries =
        [⟨Sample.deposit, some "USD", [⟨Sample.usd, -100⟩, ⟨Sample.alice, 100⟩], none⟩] := by
  obtain ⟨hanswer, hoffice⟩ := @reachable_books (Sample.digest Sample.fundingDigests) Sample.openedWorld
    Sample.fundAlice (Sample.proper_after (by decide)) ⟨by decide, by decide⟩
  rw [hanswer, hoffice]
  constructor <;> decide +kernel

/-! ## Commits -/

/-- The numbers of the postings do not show. -/
theorem Alike.office (h : Alike t t') : t'.office = t.office := by
  have hentry : t'.entry = t.entry := by
    funext e
    rw [Tables.entry, Tables.entry, Tables.postingsOf, Tables.postingsOf, h.filter_map (fun _ => rfl) fun _ => rfl]
  refine Office.ext (Book.ext ?_ ?_) ?_ h.outbox h.entrySize
  · show (fun u => (t'.accounts.get? u).map AccountRow.terms) = _
    rw [h.accounts]
    rfl
  · show t'.journals.entries.map t'.entry = t.journals.entries.map t.entry
    rw [h.journals, hentry]
  · show (fun key => (t'.keys.get? key).map _) = _
    rw [h.keys]
    rfl

/-- A commit is one step of the book, with the answer committed. -/
theorem Filed.commits {r : Reply} {ws : List Write} (hf : Filed sha256 db) (hp : proper db request)
    (hc : postgres.Commits db (request.call sha256) r ws) :
    db.office.serve sha256 request = (.ok r, (postgres.view db ws).office) := by
  have admits : (ledgerRules False).Admits (request.call sha256) := request_admits _ nofun
  obtain ⟨ws', hres, hdb, hws⟩ := likeness.serve (w := ⟨db, 0⟩) (.refl db) admits (fun _ hq => hq) rfl hc
  have halike : Alike (postgres.view db ws) (postgres.view db ws') := likeness.view (.refl db) hws
  obtain ⟨hanswer, hoffice⟩ := @Filed.serve sha256 ⟨db, 0⟩ hf request hp.1 hp.2
  refine Prod.ext (hanswer.symm.trans hres) (hoffice.symm.trans ?_)
  rw [MiniLedger.serve, hdb]
  exact halike.office

/-! ## Interleavings -/

section

variable {ι : Type} [DecidableEq ι] [Fintype ι] {requests : ι → Request} {c : Config postgres ι Reply} {i : ι}
  {as : List (Act postgres ι)}

omit [DecidableEq ι] [Fintype ι] in
theorem chronicle_kept {log : List (Commit postgres ι Reply)} (hp : ∀ i, proper w.db (requests i)) (hk : Kept sha256 w.db)
    (h : Chronicle postgres (fun i => (requests i).call sha256) w.db log db) : Kept sha256 db :=
  h.invariant hk fun hi hc => hi.commit (hp _).2 (request_commits hc)

omit [DecidableEq ι] [Fintype ι] in
/-- The log is a run of the book. -/
theorem chronicle_books {log : List (Commit postgres ι Reply)} (hp : ∀ i, proper w.db (requests i)) (hk : Kept sha256 w.db)
    (h : Chronicle postgres (fun i => (requests i).call sha256) w.db log db) (ho : Ordered db.postings) :
    w.db.office.run sha256 (log.map fun e => requests e.session) = (log.map fun e => .ok e.reply, db.office) := by
  induction h with
  | nil => rfl
  | @snoc log db e hlog hc ih =>
    have hview : (postgres.view db e.writes).postings = db.postings ++ e.writes.filterMap Write.posting? :=
      view_postings ..
    rw [hview] at ho
    have ho : Ordered db.postings := (List.pairwise_append.1 ho).1
    have hstep := ((chronicle_kept hp hk hlog).filed ho).commits (hp e.session) hc
    rw [List.map_append, Office.run_append, ih ho, List.map_append, List.map_singleton, List.map_singleton]
    simp only [Office.run, hstep]

/-- The committed tables are filed, and the log is a run of the book that leads to them. -/
theorem reaches_office (hw : Reachable sha256 proper w) (hp : ∀ i, proper w.db (requests i))
    (h : Reaches (Config.start w fun i => (requests i).call sha256) c) :
    Filed sha256 c.db ∧ w.db.office.run sha256 (c.log.map fun e => requests e.session) =
      (c.log.map fun e => .ok e.reply, c.db.office) := by
  have hlog := h.chronicle (D := discipline) hw.sound fun _ => request_disciplined _
  have ho : Ordered c.db.postings := (reaches_inSequence hw h).ordered
  exact ⟨(chronicle_kept hp hw.kept hlog).filed ho, chronicle_books hp hw.kept hlog ho⟩

/-- **Many clients, one book.** In every run of an interleaving the log is a run of the book
that leads to the committed tables, with the answers committed; and a request that is done
and was not ended by the database (a reversal without a rival) was answered as the book
answers it after some first part of that log. -/
theorem run_books (hw : Reachable sha256 proper w) (hp : ∀ i, proper w.db (requests i))
    (hrun : Run (Config.start w fun i => (requests i).call sha256) as c) :
    w.db.office.run sha256 (c.log.map fun e => requests e.session) = (c.log.map fun e => .ok e.reply, c.db.office) ∧
      ∀ i x, c.phase i = .done x → (∀ kill, Act.abort i kill ∉ as) → Unrivalled requests i →
        ∃ before after, c.log = before ++ after ∧
          ((w.db.office.run sha256 (before.map fun e => requests e.session)).2.serve sha256 (requests i)).1 = x := by
  refine ⟨(reaches_office hw hp ⟨as, hrun⟩).2, fun i x hdone hkept hrival => ?_⟩
  have hadmitted : Reachable sha256 admitted w := hw.mono fun _ _ h => h.1
  obtain ⟨before, after, d, e, rfl, hbefore, -, hmoment⟩ :=
    (timing hadmitted (hp i).1 hrival).moment rfl hrun hkept hdone
  have hserved : (serve sha256 (requests i) ⟨d.db, 0⟩).1 = x := (hmoment 0).1
  obtain ⟨rest, hlog⟩ := hrun.log_prefix hbefore
  obtain ⟨hfiled, hbook⟩ := reaches_office hw hp ⟨before, hbefore⟩
  refine ⟨d.log, rest, hlog.symm, ?_⟩
  rw [hbook, ← hserved]
  exact ((@Filed.serve sha256 ⟨d.db, 0⟩ hfiled (requests i) (hp i).1 (hp i).2).1).symm

end

theorem Sample.deposits_proper : Reachable (Sample.digest Sample.twoDepositsDigests) proper Sample.emptyAccounts ∧
    ∀ i, proper Sample.emptyAccounts.db (Sample.twoDeposits i) := by
  have hproper : ∀ i, (Sample.twoDeposits i).Admitted ∧ (Sample.twoDeposits i).CanonicalIds := by decide
  exact ⟨Sample.proper_after (by decide), hproper⟩

/-- Of two deposits at once, the second to commit. -/
theorem run_books_deposits : ∃ (c : Config postgres (Fin 2) Reply) (x : Except Failure Reply),
    (Config.start Sample.emptyAccounts fun i =>
      (Sample.twoDeposits i).call (Sample.digest Sample.twoDepositsDigests)).play Sample.overlapping = some c ∧
    c.phase 1 = .done x ∧ ∃ before after, c.log = before ++ after ∧
      ((Sample.emptyAccounts.db.office.run (Sample.digest Sample.twoDepositsDigests)
        (before.map fun e => Sample.twoDeposits e.session)).2.serve (Sample.digest Sample.twoDepositsDigests)
          (Sample.twoDeposits 1)).1 = x := by
  obtain ⟨c, hplay, hdone⟩ := Sample.overlapping_done
  obtain ⟨x, hx⟩ := hdone 1
  obtain ⟨hreachable, hproper⟩ := Sample.deposits_proper
  have hkept : ∀ kill, (Act.abort 1 kill : Act postgres (Fin 2)) ∉ Sample.overlapping := by
    intro kill
    simp [Sample.overlapping]
  exact ⟨c, x, hplay, hx, (run_books hreachable hproper (Run.played hplay)).2 1 x
    hx hkept (unrivalled_transfer rfl)⟩

end MiniLedger
