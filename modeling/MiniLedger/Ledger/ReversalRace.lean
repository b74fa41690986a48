import MiniLedger.Ledger.Reversals
import MiniLedger.Ledger.ReverseEnds

/-!
# Reversals of one transaction at once

A reversal looks for an earlier one first, before it holds anything. One that looks after
the winner has committed is told that the transaction is reversed. One that looked before
goes on to lock and post, and what stops it then is the sufficiency check, or the unique
index, whose error `isUniqueViolation` does not recognise under the `DrizzleQueryError`
around it.
-/

namespace MiniLedger

open Collections Sessions

variable {sha256 : String → String} {db t : Tables} {target : Uuid}

/-- Some transaction reverses `target`. -/
def Reversed (t : Tables) (target : Uuid) : Prop := ∃ r, Reverses t r target

theorem reversalOf_isSome : (t.reversalOf target).isSome ↔ Reversed t target := by
  cases h : t.reversalOf target with
  | none => simpa [Reversed] using reversalOf_none h
  | some r =>
    rw [Tables.reversalOf] at h
    obtain ⟨e, he, rfl⟩ := Option.map_eq_some_iff.1 h
    have hrev := List.find?_some he
    simp only [decide_eq_true_eq] at hrev
    simp only [Option.isSome_some, true_iff]
    exact ⟨e.1, e.2, Keyed.get?_eq_some_iff.2 (List.mem_of_find?_eq_some he), hrev⟩

/-- A call `reverse(target)`. -/
def Request.ReversesId (target : Uuid) : Request → Prop
  | .reverse transactionId _ => Uuid.parse? transactionId = some target
  | _ => False

instance (target : Uuid) (request : Request) : Decidable (request.ReversesId target) :=
  match request with
  | .reverse transactionId _ => inferInstanceAs (Decidable (Uuid.parse? transactionId = some target))
  | .open_ _ _ _ => .isFalse nofun
  | .transfer _ _ => .isFalse nofun

instance (t : Tables) (target : Uuid) : Decidable (Reversed t target) := decidable_of_iff _ reversalOf_isSome

/-! ## What a commit does to the links -/

theorem Committed.reversed_kept {request : Request} {r : Reply} {ws : List Write}
    (hc : Committed sha256 db request r ws) (h : Reversed db target) : Reversed (postgres.view db ws) target := by
  obtain ⟨r, hr⟩ := h
  cases hc with
  | opened | replayed => exact ⟨r, hr⟩
  | transferred _ _ _ _ _ hv => exact ⟨r, ((booked_transfer ..).reverses hv.fresh).2 (.inl hr)⟩
  | reversed _ _ _ _ _ _ _ _ _ hv => exact ⟨r, ((booked_writes ..).reverses hv.fresh).2 (.inl hr)⟩

/-- Only a call `reverse(target)` reverses the target. -/
theorem Committed.reversed_by {request : Request} {r : Reply} {ws : List Write}
    (hc : Committed sha256 db request r ws) (hother : ¬ request.ReversesId target)
    (h : Reversed (postgres.view db ws) target) : Reversed db target := by
  obtain ⟨r, hr⟩ := h
  cases hc with
  | opened | replayed => exact ⟨r, hr⟩
  | transferred _ _ _ _ _ hv =>
    rcases ((booked_transfer ..).reverses hv.fresh).1 hr with hr | ⟨-, hrev⟩
    · exact ⟨r, hr⟩
    · have htarget := hv.target
      rw [hrev] at htarget
      exact htarget.elim
  | reversed target' _ _ _ _ hparsed _ _ _ hv hrev' =>
    rcases ((booked_writes ..).reverses hv.fresh).1 hr with hr | ⟨-, hrev⟩
    · exact ⟨r, hr⟩
    · obtain rfl : target' = target := Option.some.inj (hrev'.symm.trans hrev)
      exact absurd hparsed hother

/-- Such a call commits only if the target is unreversed, and reverses it. -/
theorem Committed.reverses {request : Request} {r : Reply} {ws : List Write} (hc : Committed sha256 db request r ws)
    (h : request.ReversesId target) : ¬ Reversed db target ∧ Reversed (postgres.view db ws) target := by
  cases hc with
  | opened | replayed | transferred => exact h.elim
  | reversed target' _ _ _ b hparsed _ _ hunreversed hv hrev =>
    obtain rfl : target' = target := Option.some.inj (hparsed.symm.trans h)
    refine ⟨?_, b.id, ((booked_writes ..).reverses hv.fresh).2 (.inr ⟨rfl, hrev⟩)⟩
    rintro ⟨r, hr⟩
    exact reversalOf_none hunreversed r hr

theorem Committed.original {request : Request} {r : Reply} {ws : List Write} {o : OriginalTransaction}
    (hc : Committed sha256 db request r ws) (h : db.original target = some o) :
    (postgres.view db ws).original target = some o := by
  have kept : ∀ {journal : JournalTransaction} {currency : Currency} {options : PostOptions} {b : Booking} {db' : Tables},
      b.Valid sha256 db journal currency options → Booked db db' b → db'.original target = some o := by
    intro journal currency options b db' hv hb
    obtain ⟨row, hrow, rfl⟩ := Tables.original_eq_some h
    have hne : target ≠ b.id := by
      rintro rfl
      rw [hv.fresh] at hrow
      cases hrow
    rw [Tables.original, hb.journals, Keyed.get?_set_of_ne _ _ hne, hrow, hb.postingsOf hv, if_neg hne, List.append_nil]
    rfl
  cases hc with
  | opened | replayed => exact h
  | transferred _ _ _ _ _ hv => exact kept hv (booked_transfer ..)
  | reversed _ _ _ _ _ _ _ _ _ hv => exact kept hv (booked_writes ..)

/-! ## A call before it has looked -/

section

variable {ι : Type} [DecidableEq ι] [Fintype ι] {c d : Config postgres ι Reply} {transactionId : String} {id : Uuid}
  {o : OriginalTransaction}

/-- A call `reverse(target)` that has not looked for a reversal yet. -/
inductive Waiting (sha256 : String → String) (transactionId : String) (id : Uuid) (o : OriginalTransaction) :
    Phase postgres Reply → Prop where
  | journal : Waiting sha256 transactionId id o (.reading (ReverseService.reverse sha256 transactionId id))
  | postings : Waiting sha256 transactionId id o (.reading (.query (.postingsOf transactionId) fun rows =>
      ReverseService.plan sha256 transactionId id (some ⟨o.currency, rows⟩)))
  | planned : Waiting sha256 transactionId id o (.reading (ReverseService.plan sha256 transactionId id (some o)))
  | looking (journal : JournalTransaction) (currency : Currency) :
      Waiting sha256 transactionId id o (.inTx (ReverseService.body sha256 transactionId journal currency) ReverseService.recover []
        (ReverseService.body sha256 transactionId journal currency) [] [])

/-- A call that has looked, in a transaction that has been told something. -/
inductive Looked : Phase postgres Reply → Prop where
  | mk {body told p ws held} (h : told ≠ []) : Looked (.inTx body ReverseService.recover told p ws held)

/-- A call that has been told the transaction is reversed. -/
inductive Refusing : Phase postgres Reply → Prop where
  | mk (body told ws held) : Refusing (.inTx body ReverseService.recover told (.throw .alreadyReversed) ws held)

theorem Waiting.advance {i : ι} (hrecorded : Recorded c.db) (htarget : Uuid.parse? transactionId = some target)
    (ho : c.db.original target = some o) (h : Waiting sha256 transactionId id o (c.phase i)) :
    ∃ ph, c.advance i = some (c.goto i ph) ∧ (Waiting sha256 transactionId id o ph ∨
      (Reversed c.db target ∧ Refusing ph) ∨ (¬ Reversed c.db target ∧ Looked ph)) := by
  have hcast := castUuid_ok.2 htarget
  have ho' := ho
  obtain ⟨row, hrow, rfl⟩ := Tables.original_eq_some ho'
  generalize hph : c.phase i = ph at h
  cases h with
  | journal =>
    have ha : Query.answer (.journal transactionId) c.db = .ok (some row.currency) := by
      simp only [Query.answer, hcast, bind, Except.bind, pure, Except.pure, hrow, Option.map_some]
    exact ⟨_, advance_read hph ha, .inl .postings⟩
  | postings =>
    have ha : Query.answer (.postingsOf transactionId) c.db =
        .ok ((Tables.bySeq (c.db.postingsOf target)).map fun p => (p.accountId, p.amount)) := by
      simp only [Query.answer, hcast, bind, Except.bind, pure, Except.pure]
    exact ⟨_, advance_read hph ha, .inl .planned⟩
  | planned =>
    obtain ⟨currency, journal, hof, hcreate, -⟩ := hrecorded.compensated ho id
    rw [ReverseService.plan, hof] at hph
    simp only [hcreate] at hph
    exact ⟨_, advance_begin hph, .inl (.looking journal currency)⟩
  | looking journal currency =>
    have ha : Query.answer (.reversalOf transactionId) c.db = .ok (c.db.reversalOf target) := by
      simp only [Query.answer, hcast, bind, Except.bind, pure, Except.pure]
    refine ⟨_, advance_query hph ha, .inr ?_⟩
    cases hrev : c.db.reversalOf target with
    | some r => exact .inl ⟨reversalOf_isSome.1 (by rw [hrev]; rfl), .mk ..⟩
    | none =>
      refine .inr ⟨?_, .mk (by simp)⟩
      rintro ⟨r, hr⟩
      exact reversalOf_none hrev r hr

/-- The call is in its transaction and has looked for a reversal. -/
def hasLooked : Phase postgres Reply → Bool
  | .inTx _ _ (_ :: _) _ _ _ => true
  | _ => false

/-- The call is at the end of its transaction. -/
def atCommit : Phase postgres Reply → Bool
  | .inTx _ _ _ (.pure _) _ _ => true
  | _ => false

theorem Looked.hasLooked {ph : Phase postgres Reply} (h : Looked ph) : MiniLedger.hasLooked ph = true := by
  cases h with
  | @mk _ told _ _ _ htold =>
    cases told with
    | nil => exact absurd rfl htold
    | cons => rfl

/-- A call `reverse(target)` on its way: what it was told of a reversal is still so. -/
inductive Racing (sha256 : String → String) (transactionId : String) (id : Uuid) (o : OriginalTransaction) (db : Tables)
    (target : Uuid) : Phase postgres Reply → Prop where
  | waiting {ph} (h : Waiting sha256 transactionId id o ph) : Racing sha256 transactionId id o db target ph
  | refusing {ph} (hr : Reversed db target) (h : Refusing ph) : Racing sha256 transactionId id o db target ph
  | looked {ph} (hr : ¬ Reversed db target) (h : Looked ph) : Racing sha256 transactionId id o db target ph
  | done (x) : Racing sha256 transactionId id o db target (.done x)

/-- The next statement of such a call. -/
theorem Racing.advance {i : ι} (hrecorded : Recorded c.db) (htarget : Uuid.parse? transactionId = some target)
    (ho : c.db.original target = some o) (h : Racing sha256 transactionId id o c.db target (c.phase i))
    (hact : c.advance i = some d) :
    (∃ r ws, d = c.commit i r ws ∧ atCommit (c.phase i) = true ∧ ¬ Reversed c.db target) ∨
      (d.db = c.db ∧ Racing sha256 transactionId id o c.db target (d.phase i) ∧
        (Reversed c.db target → ∀ x, d.phase i = .done x → x = .ok (.reversed (.error .alreadyReversed)))) := by
  generalize hph : c.phase i = ph at h
  cases h with
  | waiting h =>
    obtain ⟨ph', hadv, hnext⟩ := (hph ▸ h : Waiting sha256 transactionId id o (c.phase i)).advance hrecorded htarget ho
    cases hadv.symm.trans hact
    refine .inr ⟨rfl, ?_, fun _ x hx => ?_⟩ <;> simp only [Config.goto_phase, Function.update_self] at *
    · rcases hnext with h | ⟨hr, h⟩ | ⟨hr, h⟩
      · exact .waiting h
      · exact .refusing hr h
      · exact .looked hr h
    · subst hx
      rcases hnext with h | ⟨-, h⟩ | ⟨-, h⟩ <;> cases h
  | refusing hr h =>
    cases h
    cases (advance_throw hph).symm.trans hact
    refine .inr ⟨rfl, ?_, fun _ x hx => ?_⟩ <;> simp only [Config.goto_phase, Function.update_self] at *
    · exact .done _
    · cases hx
      rfl
  | looked hr h =>
    cases h with
    | mk htold =>
      have moved : ∀ ph' : Phase postgres Reply, Racing sha256 transactionId id o c.db target ph' →
          Racing sha256 transactionId id o c.db target (Function.update c.phase i ph' i) := by
        intro ph' h
        rwa [Function.update_self]
      have hstep : Step c i d := step_of_act (a := .advance i) hact
      cases hstep with
      | reply _ _ hp => cases hph.symm.trans hp
      | refused _ _ _ hp => cases hph.symm.trans hp
      | read _ _ _ hp => cases hph.symm.trans hp
      | begin _ _ hp => cases hph.symm.trans hp
      | query _ _ _ _ _ _ _ _ hp =>
        cases hph.symm.trans hp
        exact .inr ⟨rfl, moved _ (.looked hr (.mk (by simp))), fun h => absurd h hr⟩
      | stmt _ _ _ _ _ _ _ _ _ hp =>
        cases hph.symm.trans hp
        exact .inr ⟨rfl, moved _ (.looked hr (.mk (by simp))), fun h => absurd h hr⟩
      | rollback => exact .inr ⟨rfl, moved _ (.done _), fun h => absurd h hr⟩
      | commit _ _ _ r _ _ hp =>
        cases hph.symm.trans hp
        exact .inl ⟨r, _, rfl, rfl, hr⟩
  | done x =>
    rw [advance_done hph] at hact
    cases hact

/-! ## The race -/

variable {requests : ι → Request} {w : postgres.World}

theorem Racing.congr {db' : Tables} {ph : Phase postgres Reply} (h : Racing sha256 transactionId id o db target ph)
    (hiff : Reversed db' target ↔ Reversed db target) : Racing sha256 transactionId id o db' target ph := by
  cases h with
  | waiting h => exact .waiting h
  | refusing hr h => exact .refusing (hiff.2 hr) h
  | looked hr h => exact .looked (fun hr' => hr (hiff.1 hr')) h
  | done x => exact .done x

/-- A reversal of `target` commits only while no other call `reverse(target)` is past its
look, and the database ends none once `target` is reversed. -/
def Apart (requests : ι → Request) (target : Uuid) (c : Config postgres ι Reply) : Act postgres ι → Prop
  | .advance i => (requests i).ReversesId target → atCommit (c.phase i) = true →
      ∀ j, j ≠ i → (requests j).ReversesId target → hasLooked (c.phase j) = false
  | .abort i _ => (requests i).ReversesId target → ¬ Reversed c.db target

instance (requests : ι → Request) (target : Uuid) (c : Config postgres ι Reply) (a : Act postgres ι) :
    Decidable (Apart requests target c a) :=
  match a with
  | .advance i => inferInstanceAs (Decidable ((requests i).ReversesId target → atCommit (c.phase i) = true →
      ∀ j, j ≠ i → (requests j).ReversesId target → hasLooked (c.phase j) = false))
  | .abort i _ => inferInstanceAs (Decidable ((requests i).ReversesId target → ¬ Reversed c.db target))

/-- A call `reverse(target)` that ends after `target` was reversed is told so and changes nothing. -/
def ToldReversed (requests : ι → Request) (target : Uuid) (c : Config postgres ι Reply) (a : Act postgres ι) : Prop :=
  ∀ d ∈ c.act a, (requests a.session).ReversesId target → Reversed c.db target → ∀ x, d.phase a.session = .done x →
    x = .ok (.reversed (.error .alreadyReversed)) ∧ d.db = c.db

/-- One call `reverse(target)` at most has returned a receipt, and where one has, one
reversal of `target` is in the ledger. -/
structure OneReversal (requests : ι → Request) (target : Uuid) (c : Config postgres ι Reply) : Prop where
  winner : ∀ i j receipt receipt', (requests i).ReversesId target → (requests j).ReversesId target →
    c.phase i = .done (.ok (.reversed (.ok receipt))) → c.phase j = .done (.ok (.reversed (.ok receipt'))) → i = j
  reversal : ∀ i receipt, (requests i).ReversesId target → c.phase i = .done (.ok (.reversed (.ok receipt))) →
    ∃! r, Reverses c.db r target

/-- The run of `as` from `start` to `c` reverses `target` at most once and tells the others. -/
structure ReversedOnce (requests : ι → Request) (target : Uuid) (start : Config postgres ι Reply)
    (as : List (Act postgres ι)) (c : Config postgres ι Reply) : Prop extends OneReversal requests target c where
  losers : start.Along (ToldReversed requests target) as

/-- Where every call `reverse(target)` of a configuration stands. -/
structure Raced (sha256 : String → String) (requests : ι → Request) (w : postgres.World) (target : Uuid)
    (o : OriginalTransaction) (c : Config postgres ι Reply) : Prop where
  reached : Reaches (Config.start w fun i => (requests i).call sha256) c
  original : c.db.original target = some o
  racing : ∀ i transactionId id, requests i = .reverse transactionId id → Uuid.parse? transactionId = some target →
    Racing sha256 transactionId id o c.db target (c.phase i)

theorem Raced.start (ho : w.db.original target = some o) :
    Raced sha256 requests w target o (Config.start w fun i => (requests i).call sha256) where
  reached := .refl _
  original := ho
  racing i transactionId id hi _ := by
    have hphase : (Config.start w fun i => (requests i).call sha256).phase i =
        .reading (ReverseService.reverse sha256 transactionId id) := by
      simp only [Config.start, hi]
      rfl
    rw [hphase]
    exact .waiting .journal

theorem Raced.step (hw : Reachable sha256 admitted w) (h : Raced sha256 requests w target o c) {a : Act postgres ι}
    (hapart : Apart requests target c a) (hact : c.act a = some d) : Raced sha256 requests w target o d := by
  have hreached := h.reached.snoc hact
  have hrecorded : Recorded c.db := reaches_invariant hw h.reached hw.recorded fun hi hc => hi.commit hc
  cases a with
  | abort k x =>
    simp only [Config.act, Config.abort] at hact
    split at hact
    · cases hact
      refine ⟨hreached, h.original, fun i transactionId id hi htarget => ?_⟩
      by_cases hself : i = k
      · rw [hself, Config.goto_phase, Function.update_self]
        exact .done _
      · rw [Config.goto_phase, Function.update_of_ne hself]
        exact h.racing i transactionId id hi htarget
    · cases hact
  | advance k =>
    have hstep : Step c k d := step_of_act (a := .advance k) hact
    refine ⟨hreached, ?_, fun i transactionId id hi htarget => ?_⟩
    · cases hstep with
      | commit _ _ _ _ _ _ hp hs =>
        exact (request_commits ((reaches_lawful hw h.reached).commits hp hs).1).original h.original
      | _ => exact h.original
    have hracing := h.racing i transactionId id hi htarget
    by_cases hself : i = k
    · subst hself
      rcases hracing.advance hrecorded htarget h.original hact with ⟨r, ws, rfl, -⟩ | ⟨hdb, hracing, -⟩
      · simp only [Config.commit, Function.update_self]
        exact .done _
      · rw [hdb]
        exact hracing
    · rw [hstep.others hself]
      cases hstep with
      | commit _ _ _ r ws _ hp hs =>
        have hc := request_commits ((reaches_lawful hw h.reached).commits hp hs).1
        by_cases hrival : (requests k).ReversesId target
        -- the winner commits: no other call has looked, so all are still to see the reversal
        · have hunlooked : hasLooked (c.phase i) = false :=
            hapart hrival (by rw [hp]; rfl) i hself (by rw [hi]; exact htarget)
          generalize c.phase i = ph at hracing hunlooked ⊢
          cases hracing with
          | waiting h => exact .waiting h
          | refusing hr _ => exact absurd hr (hc.reverses hrival).1
          | looked _ h => cases h.hasLooked.symm.trans hunlooked
          | done x => exact .done x
        · exact hracing.congr ⟨hc.reversed_by hrival, hc.reversed_kept⟩
      | _ => exact hracing

theorem Raced.told (hw : Reachable sha256 admitted w) (h : Raced sha256 requests w target o c) {a : Act postgres ι}
    (hapart : Apart requests target c a) : ToldReversed requests target c a := by
  have hrecorded : Recorded c.db := reaches_invariant hw h.reached hw.recorded fun hi hc => hi.commit hc
  intro d hact hreverses hreversed x hx
  cases a with
  | abort k _ => exact absurd hreversed (hapart hreverses)
  | advance k =>
    simp only [Act.session] at hreverses hx
    obtain ⟨transactionId, id, hi, htarget⟩ : ∃ transactionId id, requests k = .reverse transactionId id ∧
        Uuid.parse? transactionId = some target := by
      cases hk : requests k with
      | reverse transactionId id => exact ⟨transactionId, id, rfl, by rw [hk] at hreverses; exact hreverses⟩
      | open_ | transfer => rw [hk] at hreverses; exact hreverses.elim
    rcases (h.racing k transactionId id hi htarget).advance hrecorded htarget h.original hact with
      ⟨-, -, -, -, hunreversed⟩ | ⟨hdb, -, hdone⟩
    · exact absurd hreversed hunreversed
    · exact ⟨hdone hreversed x hx, hdb⟩

omit [DecidableEq ι] [Fintype ι] in
/-- One entry of the log at most is a reversal of `target`, and it stays. -/
theorem log_reverses (target : Uuid) {start : Tables} {log : List (Commit postgres ι Reply)}
    (h : Chronicle postgres (fun i => (requests i).call sha256) start log t) :
    (∀ e ∈ log, (requests e.session).ReversesId target → Reversed t target) ∧
      ∀ e ∈ log, ∀ e' ∈ log, (requests e.session).ReversesId target → (requests e'.session).ReversesId target → e = e' := by
  induction h with
  | nil => exact ⟨fun e he => absurd he List.not_mem_nil, fun e he => absurd he List.not_mem_nil⟩
  | @snoc log db last _ hc ih =>
    have hc : Committed sha256 db (requests last.session) last.reply last.writes := request_commits hc
    have fresh : (requests last.session).ReversesId target → ∀ e ∈ log, ¬ (requests e.session).ReversesId target :=
      fun hlast e he hrev => (hc.reverses hlast).1 (ih.1 e he hrev)
    refine ⟨fun e he hrev => ?_, fun e he e' he' hrev hrev' => ?_⟩
    · rcases List.mem_append.1 he with he | he
      · exact hc.reversed_kept (ih.1 e he hrev)
      · rw [List.mem_singleton.1 he] at hrev
        exact (hc.reverses hrev).2
    · rcases List.mem_append.1 he with he | he <;> rcases List.mem_append.1 he' with he' | he'
      · exact ih.2 e he e' he' hrev hrev'
      · exact absurd hrev (fresh (List.mem_singleton.1 he' ▸ hrev') e he)
      · exact absurd hrev' (fresh (List.mem_singleton.1 he ▸ hrev) e' he')
      · rw [List.mem_singleton.1 he, List.mem_singleton.1 he']

/-- In every interleaving one call at most reverses the target: a receipt comes from an
entry of the log, and two entries that reverse it are one. -/
theorem reaches_oneReversal (hw : Reachable sha256 admitted w)
    (h : Reaches (Config.start w fun i => (requests i).call sha256) c) : OneReversal requests target c := by
  obtain ⟨hreversed, honce⟩ := log_reverses target (h.chronicle (D := discipline) hw.sound fun _ => request_disciplined _)
  obtain ⟨houtcome, -⟩ := h.outcome fun i => @request_otherwise sha256 (requests i)
  have logged : ∀ {i receipt}, c.phase i = .done (.ok (.reversed (.ok receipt))) → ∃ e ∈ c.log, e.session = i := by
    intro i receipt hdone
    have hi := houtcome i
    rw [hdone] at hi
    rcases hi with ⟨hrefused, -⟩ | ⟨e, he, hsession, -⟩
    · exact (hrefused _ rfl).elim
    · exact ⟨e, he, hsession⟩
  constructor
  · intro i j receipt receipt' hi hj hdone hdone'
    obtain ⟨e, he, rfl⟩ := logged hdone
    obtain ⟨e', he', rfl⟩ := logged hdone'
    rw [honce e he e' he' hi hj]
  · intro i receipt hi hdone
    obtain ⟨e, he, rfl⟩ := logged hdone
    obtain ⟨r, hr⟩ := hreversed e he hi
    have kept : ∀ {db : Tables} {request : Request} {r : Reply} {ws : List Write}, Recorded db ∧ Undone db →
        Committed sha256 db request r ws → Recorded (postgres.view db ws) ∧ Undone (postgres.view db ws) :=
      fun hi hc => ⟨hi.1.commit hc, hi.2.commit hi.1 hc⟩
    have hundone := (reaches_invariant (motive := fun t => Recorded t ∧ Undone t) hw h ⟨hw.recorded, hw.undone⟩ kept).2
    exact ⟨r, hr, fun r' hr' => hundone.once r' r target hr' hr⟩

/-- **Concurrent reversals of one transaction.** In every run one of the calls
`reverse(target)` at most returns a receipt, and the one reversal is then in the ledger. In
a run that keeps the calls apart, each that ends after it is told `already_reversed`. -/
theorem reversals_race {row : JournalRow} (hw : Reachable sha256 admitted w) (hrow : w.db.journals.get? target = some row)
    {as : List (Act postgres ι)}
    (hplay : (Config.start w fun i => (requests i).call sha256).play as = some c) :
    OneReversal requests target c ∧
      ((Config.start w fun i => (requests i).call sha256).Along (Apart requests target) as →
        ReversedOnce requests target (Config.start w fun i => (requests i).call sha256) as c) := by
  have honce : OneReversal requests target c := reaches_oneReversal hw ((Reaches.refl _).of_play hplay)
  obtain ⟨o, ho⟩ : ∃ o, w.db.original target = some o := by
    rw [Tables.original, hrow]
    exact ⟨_, rfl⟩
  refine ⟨honce, fun hapart => { honce with losers := ?_ }⟩
  exact hapart.keeps (motive := Raced sha256 requests w target o) (Raced.start ho) (fun h => h.step hw) fun h => h.told hw

end

/-! ## Runs on fixed inputs -/

namespace Sample

def fourth : Uuid := ⟨"00000000-0000-4000-8000-000000000014", by decide⟩

def racingDigests : List (String × String) :=
  fundingDigests ++
    [("|".intercalate ["5606763eb3120fd42b4c43ccad70cd7a244b40cc02b375f7ac667287f7d4d6fa", second.text, usd.text,
          "-100", "-200"],
        "bcc886dd39ae976d74c614d06a7e2019be2fa8e75a838e7730caec84d2c3f764"),
      ("|".intercalate ["f8ec3841310aa3d2ace6997273f3b833bb4c8334d8a31e6b1d1fa8e7839da3ef", second.text, alice.text,
          "100", "200"],
        "22047f6d51b3c0486d4e392235af01840f8c1cba2810c5bf0bf22b0415500ce6"),
      ("|".intercalate ["bcc886dd39ae976d74c614d06a7e2019be2fa8e75a838e7730caec84d2c3f764", third.text, usd.text,
          "100", "-100"],
        "4f2b818650ecc33ad7353504cbeb03377b0752fcd6384da3d3434d6b677a2c5e"),
      ("|".intercalate ["22047f6d51b3c0486d4e392235af01840f8c1cba2810c5bf0bf22b0415500ce6", third.text, alice.text,
          "-100", "100"],
        "2dde124cc418c98ec9cbc5ad7d1bc7c9fe905ec64c549361bcdddcd1daae87f3"),
      ("|".intercalate ["4f2b818650ecc33ad7353504cbeb03377b0752fcd6384da3d3434d6b677a2c5e", fourth.text, usd.text,
          "100", "0"],
        "0cfa618a87bbb748dd42e2d4b46b1a0f57eaabee8199cf446e12b9a0a26b0ab6"),
      ("|".intercalate ["2dde124cc418c98ec9cbc5ad7d1bc7c9fe905ec64c549361bcdddcd1daae87f3", fourth.text, alice.text,
          "-100", "0"],
        "5aef45836baa5057db23444944107afe91ff40082913d405a595995b812f7370")]

/-- Alice's second hundred. -/
def fundAgain : Request := .transfer (pay usd.text alice.text "100" "alice") second

def twiceFunded : postgres.World := after racingDigests [openAlice, fundAlice, fundAgain]

/-- The first deposit is reversed by two calls at once. -/
def bothReverse : Fin 2 → Request
  | 0 => .reverse deposit.text third
  | 1 => .reverse deposit.text fourth

def racingStart : Config postgres (Fin 2) Reply :=
  Config.start twiceFunded fun i => (bothReverse i).call (digest racingDigests)

/-- The second call begins while the first is in its transaction, and looks when the first
has ended. -/
def lateLook : List (Act postgres (Fin 2)) :=
  List.replicate 4 (.advance one) ++ List.replicate 3 (.advance other) ++ List.replicate 11 (.advance one) ++
    List.replicate 2 (.advance other)

/-- Both look before either has locked a row; the second goes on when the first has ended. -/
def crossed : List (Act postgres (Fin 2)) :=
  List.replicate 4 (.advance one) ++ List.replicate 4 (.advance other) ++ List.replicate 11 (.advance one) ++
    List.replicate 4 (.advance other)

theorem reachable_twiceFunded : Reachable (digest racingDigests) admitted twiceFunded := reachable_after (by decide)

theorem twiceFunded_deposit :
    twiceFunded.db.journals.get? deposit = some ⟨"USD", none⟩ ∧ ¬ Reversed twiceFunded.db deposit := by decide +kernel

/-- What the first call returns. -/
def reversalReceipt : TransferReceipt :=
  ⟨third.text, some "USD", [⟨usd.text, "100", "-100"⟩, ⟨alice.text, "-100", "100"⟩]⟩

theorem lateLook_apart : racingStart.Along (Apart bothReverse deposit) lateLook ∧
    (racingStart.play lateLook).any (fun c => decide (
      (c.phase one).result = some (.ok (.reversed (.ok reversalReceipt))) ∧
        (c.phase other).result = some (.ok (.reversed (.error .alreadyReversed))))) = true := by
  decide +kernel

end Sample

theorem reversals_race_lateLook : ∃ c, Sample.racingStart.play Sample.lateLook = some c ∧
    c.phase Sample.one = .done (.ok (.reversed (.ok Sample.reversalReceipt))) ∧
    c.phase Sample.other = .done (.ok (.reversed (.error .alreadyReversed))) ∧
    (∃! r, Reverses c.db r Sample.deposit) ∧
    ReversedOnce Sample.bothReverse Sample.deposit Sample.racingStart Sample.lateLook c := by
  obtain ⟨hapart, hends⟩ := Sample.lateLook_apart
  obtain ⟨c, hplay, hends⟩ := (Option.any_eq_true _ _).1 hends
  obtain ⟨hone, hother⟩ := of_decide_eq_true hends
  have hreceipt := Phase.result_eq.1 hone
  obtain ⟨honce, htold⟩ := reversals_race Sample.reachable_twiceFunded Sample.twiceFunded_deposit.1 hplay
  exact ⟨c, hplay, hreceipt, Phase.result_eq.1 hother, honce.reversal _ _ (by decide) hreceipt, htold hapart⟩

/-- The unique index stops the second call, and its caller gets the driver's error in its
wrapping. -/
theorem not_reversedOnce_crossed : ∃ c,
    Reachable (Sample.digest Sample.racingDigests) admitted Sample.twiceFunded ∧
      Sample.twiceFunded.db.journals.get? Sample.deposit = some ⟨"USD", none⟩ ∧
      ¬ Reversed Sample.twiceFunded.db Sample.deposit ∧
      Sample.racingStart.play (Sample.crossed ++ [.advance Sample.other]) = some c ∧
      c.phase Sample.other = .done (.error (.query ⟨"23505", some ReverseService.reversesUniqueConstraint⟩)) ∧
      ¬ ReversedOnce Sample.bothReverse Sample.deposit Sample.racingStart (Sample.crossed ++ [.advance Sample.other]) c := by
  obtain ⟨hrow, hunreversed⟩ := Sample.twiceFunded_deposit
  have h : (Sample.racingStart.play Sample.crossed).any (fun d => (d.act (.advance Sample.other)).any fun c =>
      decide (Reversed d.db Sample.deposit ∧ (c.phase Sample.other).result =
        some (.error (.query ⟨"23505", some ReverseService.reversesUniqueConstraint⟩)))) = true := by decide +kernel
  obtain ⟨d, hplay, h⟩ := (Option.any_eq_true _ _).1 h
  obtain ⟨c, hact, hend⟩ := (Option.any_eq_true _ _).1 h
  obtain ⟨hreversed, hresult⟩ := of_decide_eq_true hend
  have hphase := Phase.result_eq.1 hresult
  refine ⟨c, Sample.reachable_twiceFunded, hrow, hunreversed, ?_, hphase, fun honce => ?_⟩
  · simp only [Config.play_append hplay, Config.play, hact, Option.bind_some]
  · have htold := (honce.losers.later hplay).1 c hact (by decide) hreversed _ hphase
    cases htold.1

end MiniLedger
