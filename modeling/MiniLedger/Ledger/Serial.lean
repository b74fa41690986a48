import MiniLedger.Ledger.Disciplined
import MiniLedger.Ledger.Sequence
import MiniLedger.Sessions.Likeness

/-!
# Interleaved postings are serial ones

Among many clients the postings of one account still come in the order of its commits,
since a session draws its values of `seq` while it holds the balance row. Apart from those
values the committed tables are those of the requests that posted, served one after another
in commit order.
-/

namespace MiniLedger

open Collections Sessions

variable {sha256 : String → String} {ι : Type} [DecidableEq ι] {c c' : Config postgres ι Reply}
  {calls : ι → Call sql Failure Reply}

/-! ## The order of an account's postings -/

/-- The values of `seq` drawn so far, in the table and by the open transactions. -/
structure InSequence (c : Config postgres ι Reply) : Prop where
  ordered : Ordered c.db.postings
  below : ∀ p ∈ c.db.postings, p.seq < c.seq
  ascending : ∀ i, Ascending ((c.phase i).writes.filterMap Write.posting?)
  drawn : ∀ i, ∀ p ∈ (c.phase i).writes.filterMap Write.posting?, p.seq < c.seq
  /-- an open transaction adds to an account after everything committed on it -/
  after : ∀ i, ∀ p ∈ (c.phase i).writes.filterMap Write.posting?, ∀ q ∈ c.db.postings,
    q.accountId = p.accountId → q.seq < p.seq

/-- A session that moves without writing postings keeps the sequence. -/
theorem InSequence.goto {i : ι} {ph : Phase postgres Reply} {n : Nat} (h : InSequence c) (hn : c.seq ≤ n)
    (hph : ph.writes.filterMap Write.posting? = [] ∨
      ph.writes.filterMap Write.posting? = (c.phase i).writes.filterMap Write.posting?) :
    InSequence { c.goto i ph with seq := n } := by
  have writes : ∀ j, (Function.update c.phase i ph j).writes.filterMap Write.posting? = [] ∨
      (Function.update c.phase i ph j).writes.filterMap Write.posting? =
        (c.phase j).writes.filterMap Write.posting? := by
    intro j
    by_cases hj : j = i
    · subst hj; rwa [Function.update_self]
    · rw [Function.update_of_ne hj]; exact .inr rfl
  refine ⟨h.ordered, fun p hp => (h.below p hp).trans_le hn, fun j => ?_, fun j p hp => ?_, fun j p hp q hq => ?_⟩
  · rcases writes j with hw | hw
    · exact (congrArg Ascending hw).mpr List.Pairwise.nil
    · exact (congrArg Ascending hw).mpr (h.ascending j)
  · rcases writes j with hw | hw
    · exact absurd (hw ▸ hp) List.not_mem_nil
    · exact (h.drawn j p (hw ▸ hp)).trans_le hn
  · rcases writes j with hw | hw
    · exact absurd (hw ▸ hp) List.not_mem_nil
    · exact h.after j p (hw ▸ hp) q hq

/-- A session inserts a posting with the next value of the sequence. -/
theorem InSequence.insert {i : ι} {ph : Phase postgres Reply} {row : PostingRow} (h : InSequence c)
    (hseq : row.seq = c.seq)
    (hph : ph.writes.filterMap Write.posting? = (c.phase i).writes.filterMap Write.posting? ++ [row]) :
    InSequence { c.goto i ph with seq := c.seq + 1 } := by
  have writes : ∀ j, ∀ p ∈ (Function.update c.phase i ph j).writes.filterMap Write.posting?,
      p ∈ (c.phase j).writes.filterMap Write.posting? ∨ p = row := by
    intro j p hp
    by_cases hj : j = i
    · subst hj
      rw [Function.update_self, hph, List.mem_append, List.mem_singleton] at hp
      exact hp
    · rw [Function.update_of_ne hj] at hp
      exact .inl hp
  refine ⟨h.ordered, fun p hp => (h.below p hp).trans (Nat.lt_succ_self _), fun j => ?_, fun j p hp => ?_,
    fun j p hp q hq hacc => ?_⟩
  · by_cases hj : j = i
    · subst hj
      simp only [Config.goto_phase, Function.update_self, hph]
      refine List.pairwise_append.2 ⟨h.ascending j, List.pairwise_singleton _ _, fun p hp q hq => ?_⟩
      rw [List.mem_singleton.1 hq, hseq]
      exact h.drawn j p hp
    · simp only [Config.goto_phase, Function.update_of_ne hj]
      exact h.ascending j
  · rcases writes j p hp with hp | rfl
    · exact (h.drawn j p hp).trans (Nat.lt_succ_self _)
    · rw [hseq]; exact Nat.lt_succ_self _
  · rcases writes j p hp with hp | rfl
    · exact h.after j p hp q hq hacc
    · rw [hseq]; exact h.below q hq

/-- A commit appends its postings to those of accounts and journals it holds alone. -/
theorem InSequence.commit {i : ι} {body recover told r ws held} (h : InSequence c) (hl : c.Lawful discipline calls)
    (hp : c.phase i = .inTx body recover told (.pure r) ws held) (hs : postgres.settle (postgres.view c.db ws) ws = .ok ()) :
    InSequence (c.commit i r ws) := by
  have hfp : Footprint c.db held ws := (hl.commits hp hs).2
  have hwrites : (c.phase i).writes = ws := by rw [hp]; rfl
  have hpostings : (c.commit i r ws).db.postings = c.db.postings ++ ws.filterMap Write.posting? := view_postings ..
  have hasc := h.ascending i
  have hdrawn := h.drawn i
  have hafter := h.after i
  rw [hwrites] at hasc hdrawn hafter
  have others : ∀ j, (c.commit i r ws).phase j = .done (.ok r) ∨ j ≠ i ∧ (c.commit i r ws).phase j = c.phase j := by
    intro j
    by_cases hj : j = i
    · subst hj; exact .inl (Function.update_self ..)
    · exact .inr ⟨hj, Function.update_of_ne hj ..⟩
  refine ⟨?_, fun p hm => ?_, fun j => ?_, fun j p hm => ?_, fun j p hm q hq hacc => ?_⟩
  · rw [hpostings]
    refine List.pairwise_append.2 ⟨h.ordered, hasc.ordered, fun p hpm q hqm => ?_⟩
    rintro (hacc | htid)
    · exact hafter q hqm p hpm hacc
    · -- the journal of a committed posting is not new
      have hheld := (hfp.covered _ (mem_postings.1 hqm)).1
      have hjournal := hl.sound p hpm
      rw [htid, (hfp.newJournal _ hheld).1] at hjournal
      cases hjournal
  · rw [hpostings] at hm
    rcases List.mem_append.1 hm with hm | hm
    · exact h.below p hm
    · exact hdrawn p hm
  · rcases others j with hj | ⟨-, hj⟩ <;> rw [hj]
    · exact List.Pairwise.nil
    · exact h.ascending j
  · rcases others j with hj | ⟨-, hj⟩ <;> rw [hj] at hm
    · simp [Phase.writes] at hm
    · exact h.drawn j p hm
  · rcases others j with hj | ⟨hne, hj⟩ <;> rw [hj] at hm
    · simp [Phase.writes] at hm
    · rw [hpostings] at hq
      rcases List.mem_append.1 hq with hq | hq
      · exact h.after j p hm q hq hacc
      · -- two sessions would hold one balance row
        have hheld := (hfp.covered _ (mem_postings.1 hq)).2
        have hdis := hl.exclusive j i hne
        have hph := hl.phase j
        unfold Phase.writes at hm
        split at hm
        · rename_i body' recover' told' p' ws' held' hpj
          rw [hpj] at hph hdis
          rw [hp] at hdis
          have hheld' := (hph.2.2.1.covered _ (mem_postings.1 hm)).2
          exact absurd (hacc ▸ hheld) (hdis hheld')
        · simp at hm

theorem InSequence.step (h : InSequence c) (hl : c.Lawful discipline calls) {i : ι} (hstep : Step c i c') :
    InSequence c' := by
  cases hstep with
  | reply | refused | read | begin => exact h.goto le_rfl (.inl rfl)
  | rollback _ _ _ _ _ _ _ n hp hn => exact h.goto hn (.inl rfl)
  | query _ _ _ _ _ _ _ _ hp => exact h.goto le_rfl (.inr (by rw [hp]; rfl))
  | commit _ _ _ _ _ _ hp hs => exact h.commit hl hp hs
  | stmt body recover told s k ws held ans new hp _ hx =>
    rcases exec_posting hx with hnone | ⟨row, hrow, hseq, hdraws⟩
    · refine h.goto (Nat.le_add_right _ _) (.inr ?_)
      rw [hp, Phase.writes, Phase.writes, List.filterMap_append, hnone, List.append_nil]
    · have hdraws : postgres.draws s = 1 := hdraws
      rw [hdraws]
      refine h.insert hseq ?_
      rw [hp, Phase.writes, Phase.writes, List.filterMap_append, hrow]

omit [DecidableEq ι] in
theorem inSequence_start {w : postgres.World} (hw : InOrder w) : InSequence (Config.start w calls) where
  ordered := hw.1.ordered
  below := hw.2
  ascending _ := List.Pairwise.nil
  drawn _ _ hp := by cases hp
  after _ _ hp := by cases hp

/-! ## Tables that differ in `seq` -/

/-- A posting but for its number. -/
def PostingRow.unnumbered (p : PostingRow) : PostingRow := { p with seq := 0 }

/-- The same tables, the same rows in the same order, but for the numbers of postings. -/
structure Alike (t t' : Tables) : Prop where
  accounts : t'.accounts = t.accounts
  balances : t'.balances = t.balances
  journals : t'.journals = t.journals
  keys : t'.keys = t.keys
  outbox : t'.outbox = t.outbox
  postings : t'.postings.map PostingRow.unnumbered = t.postings.map PostingRow.unnumbered
  entrySize : t'.entrySize = t.entrySize

def Write.unnumbered : Write → Write
  | .posting row => .posting row.unnumbered
  | w => w

theorem Alike.refl (t : Tables) : Alike t t := ⟨rfl, rfl, rfl, rfl, rfl, rfl, rfl⟩

theorem Alike.apply {t t' : Tables} {w w' : Write} (h : Alike t t') (hw : w'.unnumbered = w.unnumbered) :
    Alike (t.apply w) (t'.apply w') := by
  cases w <;> cases w' <;> simp only [Write.unnumbered, reduceCtorEq, Write.posting.injEq] at hw
  case posting.posting row row' =>
    refine ⟨h.accounts, h.balances, h.journals, h.keys, h.outbox, ?_, h.entrySize⟩
    rw [Tables.apply, Tables.apply, List.map_append, List.map_append, h.postings, List.map_singleton,
      List.map_singleton, hw]
  all_goals
    cases hw
    constructor <;> simp only [Tables.apply, h.accounts, h.balances, h.journals, h.keys, h.outbox, h.postings,
      h.entrySize]

/-- A selection by account or transaction, read without the numbers. -/
theorem Alike.filter_map {α : Type} {t t' : Tables} {p : PostingRow → Bool} {f : PostingRow → α} (h : Alike t t')
    (hp : ∀ row, p row.unnumbered = p row) (hf : ∀ row, f row.unnumbered = f row) :
    (t'.postings.filter p).map f = (t.postings.filter p).map f := by
  have erase : ∀ rows : List PostingRow, (rows.filter p).map f = ((rows.map PostingRow.unnumbered).filter p).map f := by
    intro rows
    rw [List.filter_map, List.map_map]
    have hp' : (p ∘ PostingRow.unnumbered) = p := funext hp
    have hf' : (f ∘ PostingRow.unnumbered) = f := funext hf
    rw [hp', hf']
  rw [erase, h.postings, ← erase]

theorem Alike.reversalOf {t t' : Tables} (h : Alike t t') (id : Uuid) : t'.reversalOf id = t.reversalOf id := by
  rw [Tables.reversalOf, h.journals]; rfl

theorem Alike.exec {t t' : Tables} {s : Stmt} {n : Nat} {ans : s.Ans} {new : List Write} (n' : Nat) (h : Alike t t')
    (hx : Stmt.exec s n t = .ok (ans, new)) : ∃ new', Stmt.exec s n' t' = .ok (ans, new') ∧
      List.Forall₂ (fun w w' => w'.unnumbered = w.unnumbered) new new' := by
  have same : ∀ new : List Write, List.Forall₂ (fun w w' => w'.unnumbered = w.unnumbered) new new := fun new =>
    List.forall₂_same.2 fun _ _ => rfl
  cases s with
  | insertPosting v =>
    obtain ⟨tid, htid, aid, haid, hrange, hne, hjournal, hacc, rfl⟩ := exec_insertPosting.1 hx
    exact ⟨_, exec_insertPosting.2 ⟨tid, htid, aid, haid, hrange, hne, by rwa [h.journals], by rwa [h.accounts], rfl⟩,
      .cons rfl .nil⟩
  | insertAccount v =>
    refine ⟨new, ?_, same new⟩
    have taken : ∀ code, t'.handleTaken v.handle code = t.handleTaken v.handle code := fun code => by
      rw [Tables.handleTaken, h.accounts]; rfl
    rw [exec_insertAccount] at hx ⊢
    simp only [h.accounts, taken, h.entrySize]
    exact hx
  | insertBalance a =>
    refine ⟨new, ?_, same new⟩
    rw [exec_insertBalance] at hx ⊢
    rwa [h.accounts, h.balances]
  | lockBalance a =>
    refine ⟨new, ?_, same new⟩
    rw [exec_lockBalance] at hx ⊢
    rwa [h.balances]
  | updateBalance a x c =>
    refine ⟨new, ?_, same new⟩
    rw [exec_updateBalance] at hx ⊢
    rwa [h.balances]
  | insertJournal v =>
    refine ⟨new, ?_, same new⟩
    rw [exec_insertJournal] at hx ⊢
    simp only [h.journals, h.reversalOf]
    exact hx
  | insertKey k f =>
    refine ⟨new, ?_, same new⟩
    rw [exec_insertKey] at hx ⊢
    rwa [h.keys, h.entrySize]
  | completeKey k i r =>
    refine ⟨new, ?_, same new⟩
    rw [exec_completeKey] at hx ⊢
    rwa [h.keys, h.journals]
  | insertOutbox ty p => exact ⟨new, hx, same new⟩

theorem Alike.balanced {t t' : Tables} {ws ws' : List Write} (h : Alike t t')
    (hws : List.Forall₂ (fun w w' => w'.unnumbered = w.unnumbered) ws ws') (hb : t.balanced ws = .ok ()) :
    t'.balanced ws' = .ok () := by
  rw [Tables.balanced, require_ok] at hb ⊢
  intro p' hp'
  obtain ⟨w, hw, heq⟩ := Forall₂.exists_left hws (mem_postings.1 hp')
  cases w with
  | posting p =>
    have htid : p'.transactionId = p.transactionId :=
      congrArg (fun w => (w.posting?.map PostingRow.transactionId).getD p.transactionId) heq
    rw [htid, Tables.postingsOf, h.filter_map (fun _ => rfl) fun _ => rfl]
    exact hb p (mem_postings.2 hw)
  | _ => cases heq

/-- Transactions cannot tell the numbers apart. -/
def likeness : Likeness postgres where
  blind := mayAsk
  Like := Alike
  LikeWrite w w' := w'.unnumbered = w.unnumbered
  apply_like := Alike.apply
  answer_like {q _ _} hq h := by
    cases q with
    | account id => simp only [Query.answer, h.accounts]
    | reversalOf id => simp only [Query.answer, h.reversalOf]
    | key k => simp only [Query.answer, h.keys]
    | balance | journal | postingsOf | postingsFor | statement => exact hq.elim
  exec_like := Alike.exec
  settle_like := Alike.balanced

/-- Nor can the reads before a transaction, where the postings are in order. -/
theorem Alike.read {t t' : Tables} (h : Alike t t') (ho : Ordered t.postings) (ho' : Ordered t'.postings)
    (request : Request) : postgres.read t (request.call sha256) = postgres.read t' (request.call sha256) := by
  cases request with
  | open_ input id now =>
    rw [Request.call, AccountsService.open_]
    split <;> rfl
  | transfer input id =>
    rw [Request.call]
    rcases transfer_plan sha256 input id with ⟨e, hp⟩ | ⟨e, hp⟩ | ⟨_, _, _, -, hp⟩ <;> rw [hp] <;> rfl
  | reverse transactionId id =>
    have original : t'.original = t.original := by
      funext id
      rw [Tables.original, Tables.original, h.journals, ho.bySeq_postingsOf, ho'.bySeq_postingsOf, Tables.postingsOf,
        Tables.postingsOf, h.filter_map (fun _ => rfl) fun _ => rfl]
    rw [Request.call, ReverseService.reverse, Engine.read_bind, Engine.read_bind, original_read, original_read, original]
    cases castUuid transactionId with
    | error e => rfl
    | ok target =>
      change postgres.read t (ReverseService.plan ..) = postgres.read t' (ReverseService.plan ..)
      rcases reverse_plan sha256 transactionId id (t.original target) with hp | ⟨e, hp⟩ | ⟨_, _, _, -, -, hp⟩ <;>
        rw [hp] <;> rfl

/-! ## The serial run -/

/-- The commit of a journal. -/
def posts (e : Commit postgres ι Reply) : Bool := e.writes.any fun w => w.journal?.isSome

/-- A transfer or a reversal. -/
def Request.Posting : Request → Prop
  | .open_ _ _ _ => False
  | _ => True

instance (request : Request) : Decidable request.Posting :=
  match request with
  | .open_ _ _ _ => .isFalse nofun
  | .transfer _ _ => .isTrue trivial
  | .reverse _ _ => .isTrue trivial

theorem Booking.writes_posts (b : Booking) : (b.writes.any fun w => w.journal?.isSome) = true :=
  List.any_eq_true.2 ⟨.journal b.id ⟨b.currency, b.reverses⟩, by simp [Booking.writes], rfl⟩

/-- What commits without a journal writes nothing. -/
theorem Committed.eq_nil {db : Tables} {request : Request} {r : Reply} {ws : List Write} (hp : request.Posting)
    (hc : Committed sha256 db request r ws) (hnone : (ws.any fun w => w.journal?.isSome) = false) : ws = [] := by
  cases hc with
  | opened => exact hp.elim
  | replayed => rfl
  | reversed => rw [Booking.writes_posts] at hnone; cases hnone
  | @transferred input id currency amount journal b _ _ _ =>
    cases hk : TransferService.claimedKey input.idempotencyKey with
    | none => rw [hk, TransferService.writes, Booking.writes_posts] at hnone; cases hnone
    | some key =>
      rw [hk, TransferService.writes, List.any_append, List.any_cons, Booking.writes_posts, Bool.or_true,
        Bool.true_or] at hnone
      cases hnone

omit [DecidableEq ι] in
/-- Serving what posted, in commit order, leads to tables alike. -/
theorem chronicle_alike {requests : ι → Request} (hposting : ∀ i, (requests i).Posting) {w : postgres.World}
    {log : List (Commit postgres ι Reply)} {db : Tables}
    (h : Chronicle postgres (fun i => (requests i).call sha256) w.db log db) (ho : Ordered db.postings) (hw : InOrder w) :
    Alike db (serially sha256 ((log.filter posts).map fun e => requests e.session) w).db := by
  induction h with
  | nil => exact .refl _
  | @snoc log db e _ hc ih =>
    have hview : (postgres.view db e.writes).postings = db.postings ++ e.writes.filterMap Write.posting? :=
      view_postings ..
    rw [hview] at ho
    have ho : Ordered db.postings := (List.pairwise_append.1 ho).1
    have ih := ih ho
    rw [List.filter_append, List.map_append, serially_append]
    cases hp : posts e with
    | false =>
      have hnil := (request_commits hc).eq_nil (hposting e.session) hp
      rw [hnil, List.filter_cons_of_neg (by simp [hp])]
      exact ih
    | true =>
      rw [List.filter_cons_of_pos hp, List.filter_nil, List.map_singleton]
      have admits : (ledgerRules False).Admits ((requests e.session).call sha256) := request_admits _ nofun
      have hread : postgres.read db ((requests e.session).call sha256) = _ :=
        ih.read ho (hw.serially _).1.ordered (requests e.session)
      obtain ⟨ws', -, hdb, hws⟩ := likeness.serve ih admits (fun _ hq => hq) hread hc
      have hdb : (serially sha256 [requests e.session]
          (serially sha256 ((log.filter posts).map fun e => requests e.session) w)).db = postgres.view _ ws' := hdb
      rw [hdb]
      exact likeness.view ih hws

/-- Two states of the ledger that say the same: everything but the postings is equal, and
each account has the same postings in `seq` order. -/
structure SameLedger (t t' : Tables) : Prop where
  accounts : t'.accounts = t.accounts
  balances : t'.balances = t.balances
  journals : t'.journals = t.journals
  keys : t'.keys = t.keys
  outbox : t'.outbox = t.outbox
  postings : ∀ u, (Tables.bySeq (t'.postingsFor u)).map PostingRow.unnumbered =
    (Tables.bySeq (t.postingsFor u)).map PostingRow.unnumbered

theorem Alike.sameLedger {t t' : Tables} (h : Alike t t') (ho : Ordered t.postings) (ho' : Ordered t'.postings) :
    SameLedger t t' where
  accounts := h.accounts
  balances := h.balances
  journals := h.journals
  keys := h.keys
  outbox := h.outbox
  postings u := by
    rw [ho.bySeq_postingsFor, ho'.bySeq_postingsFor]
    exact h.filter_map (fun _ => rfl) fun _ => rfl

variable [Fintype ι]

theorem reaches_inSequence {P : Tables → Request → Prop} {requests : ι → Request} {w : postgres.World}
    (hw : Reachable sha256 P w) (h : Reaches (Config.start w fun i => (requests i).call sha256) c) : InSequence c := by
  refine (h.invariant (P := fun c => c.Lawful discipline _ ∧ InSequence c)
    ⟨Config.lawful_start hw.sound, inSequence_start hw.inOrder⟩ ?_).2
  exact fun d e i hd hstep => ⟨hd.1.step (fun _ => request_disciplined _) hstep, hd.2.step hd.1 hstep⟩

/-- **Concurrent postings are serializable in commit order.** Whatever the interleaving of
transfers and reversals, the committed ledger is that of the requests that posted, served
one after another in commit order. -/
theorem reaches_serial {requests : ι → Request} {w : postgres.World} (hposting : ∀ i, (requests i).Posting)
    (hw : Reachable sha256 admitted w) (h : Reaches (Config.start w fun i => (requests i).call sha256) c) :
    SameLedger c.db (serially sha256 ((c.log.filter posts).map fun e => requests e.session) w).db := by
  have hseq : InSequence c := reaches_inSequence hw h
  have log := h.chronicle (D := discipline) hw.sound fun _ => request_disciplined _
  exact (chronicle_alike hposting log hseq.ordered hw.inOrder).sameLedger hseq.ordered (hw.inOrder.serially _).1.ordered

/-! ## A run on fixed inputs -/

namespace Sample

def twoDepositsDigests : List (String × String) :=
  fundingDigests ++
    [("|".intercalate ["bob", usd.text, bob.text, "50", "USD"],
        "11aa9173bd0be2555ba6eb1978ea39557f0588b6cc181b29660f4314c1f364c9"),
      ("|".intercalate ["5606763eb3120fd42b4c43ccad70cd7a244b40cc02b375f7ac667287f7d4d6fa", second.text, usd.text,
          "-50", "-150"],
        "e81f47d9751ff1f75009476727e4d34ef03e515bf359adfcf4768d4ef72cab6c"),
      ("|".intercalate ["", second.text, bob.text, "50", "50"],
        "7a9351c085995b8c80957c6d80a2ec60f096099b39bbd7b846a4da1c14d62aee")]

/-- Alice and Bob fund their accounts at once, both from the `@world` account. -/
def twoDeposits : Fin 2 → Request
  | 0 => fundAlice
  | 1 => .transfer (pay usd.text bob.text "50" "bob") second

def emptyAccounts : postgres.World := after twoDepositsDigests [openAlice, openBob]

/-- Bob's deposit reads its accounts before Alice's commits and posts after it. -/
def overlapping : List (Act postgres (Fin 2)) :=
  List.replicate 5 (.advance one) ++ List.replicate 3 (.advance other) ++ List.replicate 7 (.advance one) ++
    List.replicate 9 (.advance other)

/-- Both deposits commit. -/
theorem overlapping_play : ∃ c : Config postgres (Fin 2) Reply,
    (Config.start emptyAccounts fun i => (twoDeposits i).call (digest twoDepositsDigests)).play overlapping = some c ∧
      (c.log.filter posts).map Commit.session = [0, 1] ∧ c.db.outbox.length = 2 ∧
      (Tables.bySeq (c.db.postingsFor usd)).map PostingRow.amount = [-100, -50] := by
  have h : ((Config.start emptyAccounts fun i => (twoDeposits i).call (digest twoDepositsDigests)).play overlapping).any
      (fun c => decide ((c.log.filter posts).map Commit.session = [0, 1] ∧ c.db.outbox.length = 2 ∧
        (Tables.bySeq (c.db.postingsFor usd)).map PostingRow.amount = [-100, -50])) = true := by decide +kernel
  obtain ⟨c, hplay, hc⟩ := (Option.any_eq_true _ _).1 h
  exact ⟨c, hplay, of_decide_eq_true hc⟩

end Sample

/-- Two overlapping deposits, as if one had come after the other. -/
theorem reaches_serial_deposits : ∃ c : Config postgres (Fin 2) Reply,
    (Config.start Sample.emptyAccounts fun i =>
      (Sample.twoDeposits i).call (Sample.digest Sample.twoDepositsDigests)).play Sample.overlapping = some c ∧
    (c.log.filter posts).map Commit.session = [0, 1] ∧
    SameLedger c.db (serially (Sample.digest Sample.twoDepositsDigests)
      ((c.log.filter posts).map fun e => Sample.twoDeposits e.session) Sample.emptyAccounts).db := by
  obtain ⟨c, hplay, hsessions, -⟩ := Sample.overlapping_play
  have hposting : ∀ i, (Sample.twoDeposits i).Posting := by decide
  exact ⟨c, hplay, hsessions, reaches_serial hposting (Sample.reachable_after (by decide)) (Reaches.of_play (.refl _) hplay)⟩

end MiniLedger
