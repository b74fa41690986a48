import MiniLedger.Collections.Paging
import MiniLedger.Ledger.Recorded
import MiniLedger.Ledger.Serial

/-!
# The statement of an account in use

A client follows `nextCursor` from page to page while others commit. Since a session draws
its values of `seq` while it holds the balance row, the postings of one account only grow at
their end, in `seq` order, and paging over such a list neither skips nor repeats.
-/

namespace MiniLedger

open Collections Sessions

variable {sha256 : String → String} {t : Tables} {snapshots : Nat → Tables}

/-! ## The client -/

namespace StatementService

/-- A client that asks for `limits` entries in turn until `nextCursor` is null. -/
def follow (id subject : String) : List Nat → Option Nat → Reads (Option (List Statement))
  | [], _ => .pure (some [])
  | limit :: limits, cursor =>
    (forAccount id subject limit cursor).bind fun
      | none => .pure none
      | some statement =>
        match statement.nextCursor with
        | none => .pure (some [statement])
        | some next => (follow id subject limits (some next)).bind fun rest => .pure (rest.map (statement :: ·))

end StatementService

def PostingRow.entry (p : PostingRow) : StatementEntry := ⟨p.seq, p.transactionId, p.amount, p.balanceAfter⟩

/-- The statement of the account `u` as of the tables `t`. -/
def Tables.statementOf (t : Tables) (u : Uuid) : List StatementEntry := (Tables.bySeq (t.postingsFor u)).map PostingRow.entry

/-- The subject may see the account: it is a system account, or the subject owns it. -/
def AccountRow.VisibleTo (row : AccountRow) (subject : String) : Prop :=
  row.type = .system ∨ row.ownerId = some subject

def Statement.ofPage (p : Page StatementEntry Nat) : Statement := ⟨p.entries, p.next⟩

/-! ## One page -/

theorem Ordered.increasing (h : Ordered t.postings) (u : Uuid) : Increasing StatementEntry.seq (t.statementOf u) := by
  rw [Tables.statementOf, h.bySeq_postingsFor, Increasing, List.pairwise_map]
  refine (h.filter (p := fun p => decide (p.accountId = u))).imp_of_mem fun hp hq hlt => hlt (.inl ?_)
  rw [of_decide_eq_true (List.mem_filter.1 hp).2, of_decide_eq_true (List.mem_filter.1 hq).2]

/-- The rows behind a cursor are a part of the statement. -/
theorem Ordered.behind (h : Ordered t.postings) (u : Uuid) (cursor : Option Nat) :
    (Tables.bySeq ((t.postingsFor u).filter fun p => ∀ seq ∈ cursor, seq < p.seq)).map PostingRow.entry =
      after StatementEntry.seq cursor (t.statementOf u) := by
  have hfilter : Ordered ((t.postingsFor u).filter fun p => ∀ seq ∈ cursor, seq < p.seq) :=
    (h.filter _).filter _
  have hsorted : Tables.bySeq ((t.postingsFor u).filter fun p => ∀ seq ∈ cursor, seq < p.seq) =
      (t.postingsFor u).filter fun p => ∀ seq ∈ cursor, seq < p.seq := by
    refine bySeq_of_ascending (hfilter.imp_of_mem fun hp hq hlt => hlt (.inl ?_))
    rw [of_decide_eq_true (List.mem_filter.1 (List.mem_filter.1 hp).1).2,
      of_decide_eq_true (List.mem_filter.1 (List.mem_filter.1 hq).1).2]
  rw [hsorted, Tables.statementOf, h.bySeq_postingsFor, after, List.filter_map]
  rfl

/-- `forAccount` finds the account on the first tables it meets and the page on the next. -/
theorem forAccount_readOver {α : Type} {text subject : String} {u : Uuid} {row : AccountRow} {account : Account}
    {limit : Nat} {cursor : Option Nat} {f : Option Statement → Reads α} (hn : Names (snapshots 0) text u row)
    (hd : AccountsRepository.toDomain u row = .ok account) (hvisible : row.VisibleTo subject)
    (ho : Ordered (snapshots 1).postings) :
    postgres.readOver ((StatementService.forAccount text subject limit cursor).bind f) snapshots =
      postgres.readOver (f (some (.ofPage (page StatementEntry.seq limit cursor ((snapshots 1).statementOf u)))))
        fun i => snapshots (i + 2) := by
  have hc := castUuid_ok.2 hn.1
  obtain ⟨-, htype, -, howner, -⟩ := AccountsRepository.toDomain_ok hd
  have hseen : (!account.isSystem && !account.isOwnedBy subject) = false := by
    rcases hvisible with hsystem | howned
    · rw [Account.isSystem, htype, hsystem]
      rfl
    · rw [Account.isOwnedBy, howner, howned, beq_self_eq_true, Bool.not_true, Bool.and_false]
  simp only [StatementService.forAccount, AccountsRepository.findById, StatementRepository.page, Prog.ask, Prog.query_bind,
    Prog.pure_bind, Engine.readOver, Query.answer, hc, bind, Except.bind, pure, Except.pure,
    hn.2, Option.map_some, hd, Prog.ofExcept, hseen, Bool.false_eq_true, if_false, List.map_map]
  have hrows : ((Tables.bySeq (((snapshots 1).postingsFor u).filter fun p => ∀ seq ∈ cursor, seq < p.seq)).take
      (limit + 1)).map PostingRow.entry = (after StatementEntry.seq cursor ((snapshots 1).statementOf u)).take (limit + 1) := by
    rw [List.map_take, ho.behind u cursor]
  exact congrArg (fun rows : List StatementEntry => postgres.readOver (f (some ⟨rows.take limit,
    if limit < rows.length then (rows.take limit).getLast?.map StatementEntry.seq else none⟩)) fun i => snapshots (i + 2)) hrows

/-- The client pages through the statements of the account at every other snapshot. -/
theorem follow_readOver {text subject : String} {u : Uuid} {row : AccountRow} {account : Account} {limits : List Nat}
    {cursor : Option Nat} (hn : ∀ i, Names (snapshots i) text u row) (hd : AccountsRepository.toDomain u row = .ok account)
    (hvisible : row.VisibleTo subject) (ho : ∀ i, Ordered (snapshots i).postings) :
    postgres.readOver (StatementService.follow text subject limits cursor) snapshots =
      .ok (some ((pages StatementEntry.seq limits cursor fun i => (snapshots (2 * i + 1)).statementOf u).map Statement.ofPage)) := by
  induction limits generalizing cursor snapshots with
  | nil => rfl
  | cons limit limits ih =>
    rw [StatementService.follow, forAccount_readOver (hn 0) hd hvisible (ho 1), pages]
    simp only [Nat.mul_zero, Nat.zero_add]
    cases hnext : (page StatementEntry.seq limit cursor ((snapshots 1).statementOf u)).next with
    | none => simp only [Statement.ofPage, hnext, Engine.readOver, List.map_cons, List.map_nil]
    | some next =>
      have rest := @ih (fun i => snapshots (i + 2)) (some next) (fun i => hn (i + 2)) fun i => ho (i + 2)
      simp only [Statement.ofPage, hnext, List.map_cons]
      rw [Engine.readOver_map, rest]
      rfl

/-! ## Pages of a run -/

section

variable {ι : Type} [DecidableEq ι] [Fintype ι] {requests : ι → Request} {w : postgres.World}
  {c d : Config postgres ι Reply} {calls : ι → Call sql Failure Reply}

/-- Nobody takes a posting away. -/
theorem reaches_grows (h : Reaches c d) : c.db.postings <+: d.db.postings := by
  refine h.invariant (P := fun d : Config postgres ι Reply => c.db.postings <+: d.db.postings) (List.prefix_refl _) ?_
  intro d e i hd hstep
  cases hstep with
  | commit _ _ _ r ws =>
    have hview : (d.commit i r ws).db.postings = d.db.postings ++ ws.filterMap Write.posting? := view_postings ..
    rw [hview]
    exact hd.trans (List.prefix_append _ _)
  | _ => exact hd

theorem statementOf_grows {t t' : Tables} (ho : Ordered t.postings) (ho' : Ordered t'.postings)
    (h : t.postings <+: t'.postings) (u : Uuid) : t.statementOf u <+: t'.statementOf u := by
  rw [Tables.statementOf, Tables.statementOf, ho.bySeq_postingsFor, ho'.bySeq_postingsFor]
  exact (h.filter _).map _

theorem Recorded.toDomain (h : Recorded t) {u : Uuid} {row : AccountRow} (hrow : t.accounts.get? u = some row) :
    ∃ account, AccountsRepository.toDomain u row = .ok account := by
  obtain ⟨currency, hcurrency, -⟩ := Currency.of_supported (h.account u row hrow).1
  refine ⟨⟨⟨u.text⟩, row.type, currency, row.overdraftFloor, row.handle, row.ownerId, row.createdAt⟩, ?_⟩
  rw [AccountsRepository.toDomain, hcurrency]

end

/-- **A statement neither skips nor repeats.** While requests run and commit, a client
follows the statement of an account it may see, for any page sizes: the `k`-th page reads
the account in `c (2 * k)` and its rows in `c (2 * k + 1)`. Entries and cursors ascend; when
there is no next page the entries are the statement as the last page met it, with everything
committed before the first. -/
theorem statement_followed {ι : Type} [DecidableEq ι] [Fintype ι] {requests : ι → Request} {w : postgres.World}
    {c : Nat → Config postgres ι Reply} {text subject : String} {u : Uuid} {row : AccountRow} {limits : List Nat}
    (hw : Reachable sha256 admitted w) (h0 : Reaches (Config.start w fun i => (requests i).call sha256) (c 0))
    (hruns : ∀ k, Reaches (c k) (c (k + 1))) (hnames : Names (c 0).db text u row) (hvisible : row.VisibleTo subject)
    (hlimits : ∀ limit ∈ limits, 1 ≤ limit) :
    ∃ pages, postgres.readOver (StatementService.follow text subject limits none) (fun k => (c k).db) = .ok (some pages) ∧
      (pages.flatMap Statement.entries).Pairwise (fun e e' => e.seq < e'.seq) ∧
      (pages.filterMap Statement.nextCursor).Pairwise (· < ·) ∧
      (∀ last, pages.getLast? = some last → last.nextCursor = none →
        pages.flatMap Statement.entries = (c (2 * (pages.length - 1) + 1)).db.statementOf u ∧
          ∀ e ∈ (c 0).db.statementOf u, e ∈ pages.flatMap Statement.entries) ∧
      ((∀ k, ((c k).db.statementOf u).length < limits.length) →
        ∃ last, pages.getLast? = some last ∧ last.nextCursor = none) := by
  have hreach : ∀ k, Reaches (Config.start w fun i => (requests i).call sha256) (c k) := by
    intro k
    induction k with
    | zero => exact h0
    | succ k ih => exact ih.trans (hruns k)
  have hordered : ∀ k, Ordered (c k).db.postings := fun k => (reaches_inSequence hw (hreach k)).ordered
  have hgrows : ∀ k, (c k).db.statementOf u <+: (c (k + 1)).db.statementOf u := fun k =>
    statementOf_grows (hordered k) (hordered (k + 1)) (reaches_grows (hruns k)) u
  have hn : ∀ k, Names (c k).db text u row := by
    intro k
    induction k with
    | zero => exact hnames
    | succ k ih =>
      exact ⟨hnames.1, reaches_keeps (motive := fun t => t.accounts.get? u = some row) hw (hreach k) (hruns k) ih.2
        fun hi hc => hc.account hi⟩
  have hrecorded : Recorded (c 0).db := reaches_invariant hw h0 hw.recorded fun hi hc => hi.commit hc
  obtain ⟨account, hd⟩ := hrecorded.toDomain hnames.2
  have hsorted : ∀ k, Increasing StatementEntry.seq ((c k).db.statementOf u) := fun k => (hordered k).increasing u
  have hbefore : ∀ k, (c 0).db.statementOf u <+: (c k).db.statementOf u := by
    intro k
    induction k with
    | zero => exact List.prefix_refl _
    | succ k ih => exact ih.trans (hgrows k)
  have hpaged : ∀ i, (c (2 * i + 1)).db.statementOf u <+: (c (2 * (i + 1) + 1)).db.statementOf u := fun i =>
    (hgrows (2 * i + 1)).trans (hgrows (2 * i + 2))
  have hfollow := @follow_readOver (fun k => (c k).db) _ _ _ _ _ limits none hn hd hvisible hordered
  have hjoins := pages_joins hlimits (fun i => hsorted (2 * i + 1)) hpaged (Nat.zero_le _)
  have hends := fun size => @pages_end _ _ _ StatementEntry.seq 0 limits _ hlimits (fun i => hsorted (2 * i + 1)) hpaged size
  have hstart : cursorAt StatementEntry.seq ((c (2 * 0 + 1)).db.statementOf u) 0 = none := rfl
  rw [hstart] at hjoins hends
  generalize pages StatementEntry.seq limits none _ = read at hfollow hjoins hends
  obtain ⟨m, -, hm, hjoined, hend⟩ := hjoins.joined
  rw [List.take_zero, List.nil_append] at hjoined
  have hentries : (read.map Statement.ofPage).flatMap Statement.entries =
      ((c (2 * (read.length - 1) + 1)).db.statementOf u).take m := by
    rw [List.flatMap_map]
    exact hjoined
  have hcursors : (read.map Statement.ofPage).filterMap Statement.nextCursor = read.filterMap Page.next := by
    rw [List.filterMap_map]
    rfl
  refine ⟨read.map Statement.ofPage, hfollow, ?_, ?_, ?_, ?_⟩
  · rw [hentries]
    exact (hsorted _).sublist (List.take_sublist _ _)
  · rw [hcursors]
    exact hjoins.cursors
  · intro last hlast hnone
    rw [List.getLast?_map] at hlast
    obtain ⟨p, hp, rfl⟩ := Option.map_eq_some_iff.1 hlast
    rw [hentries, hend p hp hnone, List.take_length, List.length_map]
    exact ⟨rfl, fun e he => (hbefore _).subset he⟩
  · intro hshort
    have hpos := hshort 0
    obtain ⟨p, hp, hnone⟩ := hends (limits.length - 1) (fun i => by have := hshort (2 * i + 1); omega) (by omega)
      (Nat.zero_le _)
    exact ⟨.ofPage p, by rw [List.getLast?_map, hp]; rfl, hnone⟩

/-! ## A run on fixed inputs -/

/-- Two deposits that begin and commit between the client's first read and its second. -/
def Sample.duringDeposits (c : Config postgres (Fin 2) Reply) : Nat → Config postgres (Fin 2) Reply
  | 0 => Config.start emptyAccounts fun i => (twoDeposits i).call (digest twoDepositsDigests)
  | _ + 1 => c

theorem statement_followed_deposits : ∃ (c : Config postgres (Fin 2) Reply) (pages : List Statement),
    postgres.readOver (StatementService.follow Sample.usd.text "alice" [1, 50, 50] none)
      (fun k => (Sample.duringDeposits c k).db) = .ok (some pages) ∧
    pages.flatMap Statement.entries = c.db.statementOf Sample.usd ∧
    (pages.flatMap Statement.entries).map StatementEntry.amount = [-100, -50] := by
  obtain ⟨c, hplay, -, -, hrows⟩ := Sample.overlapping_play
  have hamounts : (c.db.statementOf Sample.usd).map StatementEntry.amount = [-100, -50] := by
    rw [Tables.statementOf, List.map_map]
    exact hrows
  have hlen : (c.db.statementOf Sample.usd).length = 2 := by
    rw [← List.length_map StatementEntry.amount, hamounts]
    rfl
  have hruns : ∀ k, Reaches (Sample.duringDeposits c k) (Sample.duringDeposits c (k + 1)) := by
    intro k
    cases k with
    | zero => exact .of_play (.refl _) hplay
    | succ k => exact .refl _
  have hnames : Names Sample.emptyAccounts.db Sample.usd.text Sample.usd (worldAccount "USD" 0) :=
    ⟨Sample.usd.parse?_text, by decide +kernel⟩
  have hshort : ∀ k, ((Sample.duringDeposits c k).db.statementOf Sample.usd).length < 3 := by
    intro k
    cases k with
    | zero =>
      show (Sample.emptyAccounts.db.statementOf Sample.usd).length < 3
      decide +kernel
    | succ k =>
      show (c.db.statementOf Sample.usd).length < 3
      omega
  have hlimits : ∀ limit ∈ [1, 50, 50], 1 ≤ limit := by decide
  have hvisible : (worldAccount "USD" 0).VisibleTo "alice" := .inl rfl
  obtain ⟨pages, hread, -, -, hcomplete, hends⟩ := @statement_followed (Sample.digest Sample.twoDepositsDigests) (Fin 2) _ _
    Sample.twoDeposits Sample.emptyAccounts (Sample.duringDeposits c) _ _ _ _ _ (Sample.reachable_after (by decide))
    (.refl _) hruns hnames hvisible hlimits
  obtain ⟨last, hlast, hnone⟩ := hends hshort
  have hjoined := (hcomplete last hlast hnone).1
  have hfinal : pages.flatMap Statement.entries = c.db.statementOf Sample.usd := hjoined
  exact ⟨c, pages, hread, hfinal, by rw [hfinal, hamounts]⟩

end MiniLedger
