import MiniLedger.Ledger.BookRuns
import MiniLedger.Ledger.StatementPages

/-!
# The dashboard's statement view

The view holds the entries loaded so far and the cursor of the next page. A click on "load
more" sends one request, the answer may be long in coming or fail, and money moves the while.
Whatever happens, the entries on the page are the first ones of the account's statement.
-/

namespace MiniLedger.Dashboard

open Collections Sessions

/-! ## `web/src/lib/client.ts` and `web/src/components/dashboard/statement-view.tsx` -/

/-- What `apiGet` answers. -/
inductive ApiResult (α : Type) where
  | ok (data : α)
  | unauthorized
  | unavailable
  | error (message : String)

/-- The state of the list and its button. -/
structure StatementView where
  entries : List StatementEntry
  cursor : Option Nat
  loading : Bool
  error : Option String
  /-- the router was sent to the login page -/
  left : Bool

namespace StatementView

def start (initial : Statement) : StatementView := ⟨initial.entries, initial.nextCursor, false, none, false⟩

/-- `loadMore` up to its request: the cursor it asks for. There is no button without a
cursor, and while loading it is disabled. -/
def loadMore (view : StatementView) : Option (Nat × StatementView) :=
  match view.cursor with
  | none => none
  | some cursor => if view.loading then none else some (cursor, { view with loading := true, error := none })

/-- `loadMore` from the result on. -/
def loaded (view : StatementView) : ApiResult Statement → StatementView
  | .unauthorized => { view with left := true }
  | .unavailable => { view with loading := false, error := some "errors.unavailable" }
  | .error message => { view with loading := false, error := some message }
  | .ok data => { view with entries := view.entries ++ data.entries, cursor := data.nextCursor, loading := false }

end StatementView

/-- The page size of `fetchStatement` and `getStatement`. -/
def pageSize : Nat := 50

/-! ## The view at work -/

section

variable {ι : Type} [DecidableEq ι] [Fintype ι]

/-- A request of the view: on its way, or answered on the rows of a ledger, or failed. -/
inductive Flight (ι : Type) where
  | asked (cursor : Nat)
  | answered (data : Statement) (read : Config postgres ι Reply)
  | failed (result : ApiResult Statement)

/-- A view, the requests it waits for, and the ledger behind them. -/
structure Browsing (ι : Type) where
  view : StatementView
  flights : List (Flight ι)
  ledger : Config postgres ι Reply
  /-- the ledger the last page shown was read on -/
  read : Config postgres ι Reply

/-- The two reads of a request: the account on one ledger, the rows on a later one. -/
def between (c d : Config postgres ι Reply) (k : Nat) : Tables := if k = 0 then c.db else d.db

/-- Either side moves: the ledger, a click, an answer, a failure. -/
inductive Browsing.Step (text subject : String) (s : Browsing ι) : Browsing ι → Prop where
  | work {d} : Reaches s.ledger d → Step text subject s { s with ledger := d }
  | click {cursor view} : s.view.loadMore = some (cursor, view) →
      Step text subject s { s with view := view, flights := s.flights ++ [.asked cursor] }
  | answer {before after cursor c d data} : s.flights = before ++ .asked cursor :: after → Reaches s.ledger c → Reaches c d →
      postgres.readOver (StatementService.forAccount text subject pageSize (some cursor)) (between c d) = .ok (some data) →
      Step text subject s { s with flights := before ++ .answered data d :: after, ledger := d }
  | fail {before after cursor result} : s.flights = before ++ .asked cursor :: after →
      (∀ data, result ≠ ApiResult.ok data) → Step text subject s { s with flights := before ++ .failed result :: after }
  | show {before after data d} : s.flights = before ++ .answered data d :: after →
      Step text subject s { s with view := s.view.loaded (.ok data), flights := before ++ after, read := d }
  | report {before after result} : s.flights = before ++ .failed result :: after →
      Step text subject s { s with view := s.view.loaded result, flights := before ++ after }

/-- The page as it is opened with its first entries. -/
def Browsing.opened (initial : Statement) (d : Config postgres ι Reply) : Browsing ι := ⟨.start initial, [], d, d⟩

/-! ## What is on the page -/

/-- The first entries of a statement, and the cursor behind them. -/
structure Shows (rows entries : List StatementEntry) (cursor : Option Nat) : Prop where
  shown : entries = rows.take entries.length
  rest : cursor = none → entries.length = rows.length
  more : cursor ≠ none → entries.length < rows.length ∧ cursor = cursorAt StatementEntry.seq rows entries.length

theorem Shows.prefix {rows entries : List StatementEntry} {cursor : Option Nat} (h : Shows rows entries cursor) :
    entries <+: rows := h.shown ▸ List.take_prefix _ _

/-- What the first `n` entries of a statement and the page behind them show. -/
theorem shows_page {rows : List StatementEntry} (hsorted : Increasing StatementEntry.seq rows) (n : Nat) :
    Shows rows (rows.take n ++ (page StatementEntry.seq pageSize (cursorAt StatementEntry.seq rows n) rows).entries)
      (page StatementEntry.seq pageSize (cursorAt StatementEntry.seq rows n) rows).next := by
  rw [page_cursorAt hsorted (by decide)]
  show Shows rows (rows.take n ++ (rows.drop n).take pageSize) _
  rw [← List.take_add]
  refine ⟨?_, fun hnone => ?_, fun hmore => ?_⟩
  · rw [List.length_take]
    exact List.take_eq_take_min
  · by_cases hlt : n + pageSize < rows.length
    · have hpos : 0 < n + pageSize := Nat.lt_of_lt_of_le (by decide) (Nat.le_add_left pageSize n)
      rw [if_pos hlt, ← Nat.sub_add_cancel hpos, cursorAt_succ (by omega)] at hnone
      cases hnone
    · rw [List.length_take]
      omega
  · by_cases hlt : n + pageSize < rows.length
    · rw [List.length_take, Nat.min_eq_left hlt.le]
      exact ⟨hlt, if_pos hlt⟩
    · exact absurd (if_neg hlt) hmore

/-- The first page of a statement. -/
theorem Shows.first {rows : List StatementEntry} (hsorted : Increasing StatementEntry.seq rows) :
    Shows rows (page StatementEntry.seq pageSize none rows).entries (page StatementEntry.seq pageSize none rows).next :=
  shows_page hsorted 0

/-- The next page goes on where the entries end, on a statement that may have grown. -/
theorem Shows.next {rows rows' entries : List StatementEntry} {cursor : Nat} (h : Shows rows entries (some cursor))
    (hgrown : rows <+: rows') (hsorted : Increasing StatementEntry.seq rows') :
    Shows rows' (entries ++ (page StatementEntry.seq pageSize (some cursor) rows').entries)
      (page StatementEntry.seq pageSize (some cursor) rows').next := by
  obtain ⟨hlt, hcursor⟩ := h.more (Option.some_ne_none cursor)
  have hshown : entries = rows'.take entries.length := by
    rw [take_grown hgrown hlt.le]
    exact h.shown
  rw [hcursor, ← cursorAt_grown hgrown hlt.le]
  have hpage := shows_page hsorted entries.length
  rwa [← hshown] at hpage

/-! ## Every run of the view -/

variable {requests : ι → Request} {w : postgres.World} {sha256 : String → String} {text subject : String} {u : Uuid}
  {row : AccountRow} {c d e : Config postgres ι Reply} {s s' : Browsing ι}

/-- The account is there to be seen on a ledger in use. -/
structure Visits (sha256 : String → String) (requests : ι → Request) (w : postgres.World) (text subject : String) (u : Uuid)
    (row : AccountRow) (c : Config postgres ι Reply) : Prop where
  world : Reachable sha256 admitted w
  reached : Reaches (Config.start w fun i => (requests i).call sha256) c
  names : Names c.db text u row
  visible : row.VisibleTo subject

theorem Visits.onward (h : Visits sha256 requests w text subject u row c) (hrun : Reaches c d) :
    Visits sha256 requests w text subject u row d where
  world := h.world
  reached := h.reached.trans hrun
  names := ⟨h.names.1, reaches_keeps (motive := fun t => t.accounts.get? u = some row) h.world h.reached hrun h.names.2
    fun hi hc => hc.account hi⟩
  visible := h.visible

theorem Visits.ordered (h : Visits sha256 requests w text subject u row c) : Ordered c.db.postings :=
  (reaches_inSequence h.world h.reached).ordered

theorem Visits.grows (h : Visits sha256 requests w text subject u row c) (hrun : Reaches c d) :
    c.db.statementOf u <+: d.db.statementOf u :=
  statementOf_grows h.ordered (h.onward hrun).ordered (reaches_grows hrun) u

/-- An answer is the page behind its cursor, as of its second read. -/
theorem Visits.answered (h : Visits sha256 requests w text subject u row c) (hrun : Reaches c d) {cursor : Option Nat}
    {data : Statement} (hdata : postgres.readOver (StatementService.forAccount text subject pageSize cursor) (between c d) =
      .ok (some data)) : data = .ofPage (page StatementEntry.seq pageSize cursor (d.db.statementOf u)) := by
  have hrecorded : Recorded c.db := reaches_invariant h.world h.reached h.world.recorded fun hi hc => hi.commit hc
  obtain ⟨account, haccount⟩ := hrecorded.toDomain h.names.2
  have hread := @forAccount_readOver (between c d) _ text subject u row account pageSize cursor .pure h.names haccount
    h.visible (h.onward hrun).ordered
  rw [Prog.bind_pure, hdata] at hread
  exact Option.some.inj (Except.ok.inj hread)

/-- What a request on its way owes the view. -/
def Flight.Owes (u : Uuid) (s : Browsing ι) : Flight ι → Prop
  | .asked cursor => s.view.cursor = some cursor
  | .answered data d => Reaches s.read d ∧ Reaches d s.ledger ∧
      Shows (d.db.statementOf u) (s.view.entries ++ data.entries) data.nextCursor
  | .failed result => ∀ data, result ≠ .ok data

/-- The view shows the statement as of the last page read, and at most one request, which
carries it on, is on its way. -/
structure Browsing.Faithful (u : Uuid) (d : Config postgres ι Reply) (s : Browsing ι) : Prop where
  since : Reaches d s.read
  onward : Reaches s.read s.ledger
  shows : Shows (s.read.db.statementOf u) s.view.entries s.view.cursor
  single : s.flights.length ≤ 1
  busy : s.flights ≠ [] → s.view.loading = true
  owed : ∀ f ∈ s.flights, f.Owes u s

/-- Work on the ledger changes no page and no answer. -/
theorem Flight.Owes.work {f : Flight ι} (h : f.Owes u s) (hrun : Reaches s.ledger d) : f.Owes u { s with ledger := d } := by
  cases f with
  | asked cursor => exact h
  | answered data read => exact ⟨h.1, h.2.1.trans hrun, h.2.2⟩
  | failed result => exact h

/-- The only request on its way, once one is known. -/
theorem Browsing.Faithful.alone {before after : List (Flight ι)} {f : Flight ι} (h : s.Faithful u d)
    (hflights : s.flights = before ++ f :: after) :
    before = [] ∧ after = [] ∧ s.view.loading = true ∧ f.Owes u s := by
  have hlen := h.single
  rw [hflights, List.length_append, List.length_cons] at hlen
  have hmem : f ∈ s.flights := hflights ▸ List.mem_append_right _ List.mem_cons_self
  exact ⟨List.eq_nil_of_length_eq_zero (by omega), List.eq_nil_of_length_eq_zero (by omega),
    h.busy (List.ne_nil_of_mem hmem), h.owed f hmem⟩

theorem Browsing.Faithful.step (hv : Visits sha256 requests w text subject u row d) (h : s.Faithful u d)
    (hstep : Browsing.Step text subject s s') : s'.Faithful u d := by
  cases hstep with
  | work hrun =>
    exact ⟨h.since, h.onward.trans hrun, h.shows, h.single, h.busy, fun f hf => (h.owed f hf).work hrun⟩
  | @click cursor view hload =>
    obtain ⟨hcursor, hidle, rfl⟩ : s.view.cursor = some cursor ∧ s.view.loading = false ∧
        view = { s.view with loading := true, error := none } := by
      unfold StatementView.loadMore at hload
      split at hload
      · cases hload
      · rename_i hcursor
        split at hload
        · cases hload
        · rename_i hidle
          cases hload
          exact ⟨hcursor, Bool.eq_false_iff.2 hidle, rfl⟩
    have hnone : s.flights = [] := by
      by_contra hne
      exact Bool.false_ne_true (hidle.symm.trans (h.busy hne))
    refine ⟨h.since, h.onward, h.shows, ?_, fun _ => rfl, fun f hf => ?_⟩
    · show (s.flights ++ [Flight.asked cursor]).length ≤ 1
      rw [hnone, List.nil_append, List.length_singleton]
    · change f ∈ s.flights ++ [Flight.asked cursor] at hf
      rw [hnone, List.nil_append, List.mem_singleton] at hf
      subst hf
      exact hcursor
  | @answer before after cursor c' e data hflights hrun hrun' hdata =>
    obtain ⟨rfl, rfl, hload, hcursor⟩ := h.alone hflights
    have hvisits : Visits sha256 requests w text subject u row s.read := hv.onward h.since
    have hthere := hvisits.onward (h.onward.trans hrun)
    have hpast : Reaches s.read e := (h.onward.trans hrun).trans hrun'
    have hpage : Shows (e.db.statementOf u) (s.view.entries ++ data.entries) data.nextCursor := by
      have hshows := h.shows
      rw [show s.view.cursor = some cursor from hcursor] at hshows
      rw [hthere.answered hrun' hdata]
      exact hshows.next (hvisits.grows hpast) ((hthere.onward hrun').ordered.increasing u)
    refine ⟨h.since, hpast, h.shows, le_refl 1, fun _ => hload, fun f hf => ?_⟩
    obtain rfl := List.mem_singleton.1 hf
    exact ⟨hpast, .refl _, hpage⟩
  | fail hflights hfailed =>
    obtain ⟨rfl, rfl, hload, -⟩ := h.alone hflights
    refine ⟨h.since, h.onward, h.shows, le_refl 1, fun _ => hload, fun f hf => ?_⟩
    obtain rfl := List.mem_singleton.1 hf
    exact hfailed
  | «show» hflights =>
    obtain ⟨rfl, rfl, -, hsince, honward, hshows⟩ := h.alone hflights
    exact ⟨h.since.trans hsince, honward, hshows, Nat.zero_le 1, fun hne => absurd rfl hne, List.forall_mem_nil _⟩
  | @report before after result hflights =>
    obtain ⟨rfl, rfl, -, hfailed⟩ := h.alone hflights
    have hkept : (s.view.loaded result).entries = s.view.entries ∧ (s.view.loaded result).cursor = s.view.cursor := by
      cases result with
      | ok data => exact absurd rfl (hfailed data)
      | unauthorized => exact ⟨rfl, rfl⟩
      | unavailable => exact ⟨rfl, rfl⟩
      | error message => exact ⟨rfl, rfl⟩
    have hshows : Shows (s.read.db.statementOf u) (s.view.loaded result).entries (s.view.loaded result).cursor := by
      rw [hkept.1, hkept.2]
      exact h.shows
    exact ⟨h.since, h.onward, hshows, Nat.zero_le 1, fun hne => absurd rfl hne, List.forall_mem_nil _⟩

theorem Browsing.Faithful.opened {initial : Statement} (hv : Visits sha256 requests w text subject u row c) (hrun : Reaches c d)
    (hinitial : postgres.readOver (StatementService.forAccount text subject pageSize none) (between c d) = .ok (some initial)) :
    (Browsing.opened initial d).Faithful u d where
  since := .refl _
  onward := .refl _
  shows := by
    rw [hv.answered hrun hinitial]
    exact .first ((hv.onward hrun).ordered.increasing u)
  single := Nat.zero_le 1
  busy := fun hne => absurd rfl hne
  owed := List.forall_mem_nil _

/-- **The page shows the statement.** However the clicks, the answers, the failures and the
work on the ledger fall, the entries on the page are the first entries of the account's
statement as of the last page read, each once and in `seq` order. The button asks for what
follows the last of them; where there is no button the statement is complete, with all that was
committed before the page was opened. -/
theorem statementView_faithful {initial : Statement} (hw : Reachable sha256 admitted w)
    (h0 : Reaches (Config.start w fun i => (requests i).call sha256) c) (hnames : Names c.db text u row)
    (hvisible : row.VisibleTo subject) (hread : Reaches c d)
    (hinitial : postgres.readOver (StatementService.forAccount text subject pageSize none) (between c d) = .ok (some initial))
    (hrun : Relation.ReflTransGen (Browsing.Step text subject) (.opened initial d) s) :
    Reaches d s.read ∧ Reaches s.read s.ledger ∧
      s.view.entries <+: s.read.db.statementOf u ∧
      s.view.entries.Pairwise (fun e e' => e.seq < e'.seq) ∧
      (∀ cursor, s.view.cursor = some cursor → s.view.entries.getLast?.map StatementEntry.seq = some cursor) ∧
      (s.view.cursor = none → s.view.entries = s.read.db.statementOf u ∧ ∀ e ∈ c.db.statementOf u, e ∈ s.view.entries) := by
  have hv : Visits sha256 requests w text subject u row c := ⟨hw, h0, hnames, hvisible⟩
  have hfaithful : s.Faithful u d := by
    induction hrun with
    | refl => exact .opened hv hread hinitial
    | tail _ hstep ih => exact ih.step (hv.onward hread) hstep
  have hsorted : Increasing StatementEntry.seq (s.read.db.statementOf u) :=
    ((hv.onward hread).onward hfaithful.since).ordered.increasing u
  have hshows := hfaithful.shows
  refine ⟨hfaithful.since, hfaithful.onward, hshows.prefix, hsorted.sublist hshows.prefix.sublist, ?_, fun hnone => ?_⟩
  · intro cursor hcursor
    have hmore := (hshows.more (hcursor ▸ Option.some_ne_none cursor)).2
    rw [hcursor, cursorAt, ← hshows.shown] at hmore
    exact hmore.symm
  · have hall : s.view.entries = s.read.db.statementOf u := by
      rw [hshows.shown, hshows.rest hnone, List.take_length]
    exact ⟨hall, fun e he => hall ▸ (hv.grows (hread.trans hfaithful.since)).subset he⟩

end

end MiniLedger.Dashboard

/-! ## A run on fixed inputs -/

namespace MiniLedger

open Bookkeeping Collections Sessions

/-- An account's statement has an entry for each leg on it. -/
theorem Recorded.length_statementOf {t : Tables} (h : Recorded t) (u : Uuid) :
    (t.statementOf u).length = (t.book.entries.flatMap Entry.legs).countP fun l => l.account = u := by
  rw [(h.book_legs).countP_eq, List.countP_map, Tables.statementOf, List.length_map, Tables.bySeq,
    (List.perm_insertionSort _ _).length_eq, Tables.postingsFor, List.countP_eq_length_filter]
  rfl

namespace Sample

/-- The last two digits of the `n`-th id. -/
def octal (n : Fin 64) : List Char := [Nat.digitChar (n / 8), Nat.digitChar (n % 8)]

def numbered (n : Fin 64) : Uuid where
  text := String.ofList (hyphenated ("000000000000400080000000000001".toList ++ octal n))
  canonical := by
    rw [String.toList_ofList]
    refine uuidPattern_iff.2 ⟨_, rfl, rfl, fun c hc => ?_⟩
    have hzeros : "000000000000400080000000000001".toList.all isLowerHex = true := by decide +kernel
    have hdigits : ∀ n, (octal n).all isLowerHex = true := by decide +kernel
    exact (List.mem_append.1 hc).elim (List.all_eq_true.1 hzeros c) (List.all_eq_true.1 (hdigits n) c)

theorem numbered_injective : Function.Injective numbered := by
  intro m n h
  have hprinted : ∀ n, hyphenated ("000000000000400080000000000001".toList ++ octal n) =
      "00000000-0000-4000-8000-0000000001".toList ++ octal n := fun _ => rfl
  have htext := String.ofList_injective (congrArg Uuid.text h)
  rw [hprinted, hprinted] at htext
  have hdigits : ∀ m n, octal m = octal n → m = n := by decide +kernel
  exact hdigits m n (List.append_cancel_left htext)

/-- A cent for Alice. -/
def payCent (id : Uuid) : Request := .transfer (pay usd.text alice.text "1" "alice") id

def cent (id : Uuid) : LedgerEntry := ⟨id, some "USD", [⟨usd, -1⟩, ⟨alice, 1⟩], none⟩

/-- A world where Alice was paid a cent under each of the ids. -/
structure Paid (ids : List Uuid) (w : postgres.World) : Prop where
  reachable : Reachable (digest []) proper w
  world : w.db.accounts.get? usd = some (worldAccount "USD" 0)
  alice : w.db.accounts.get? alice = some ⟨.user, "USD", some 0, none, some "alice", 0⟩
  entries : w.db.book.entries = ids.map cent

theorem paid_start : Paid [] (after [] [openAlice]) where
  reachable := proper_after (by decide)
  world := by decide +kernel
  alice := by decide +kernel
  entries := by decide +kernel

theorem moved_cents (ids : List Uuid) : moved ((ids.map cent).flatMap Entry.legs) usd = -ids.length ∧
    moved ((ids.map cent).flatMap Entry.legs) alice = ids.length ∧
    ((ids.map cent).flatMap Entry.legs).countP (fun l => l.account = usd) = ids.length := by
  induction ids with
  | nil => exact ⟨rfl, rfl, rfl⟩
  | cons id ids ih =>
    obtain ⟨husd, halice, hcount⟩ := ih
    have hone : moved (cent id).legs usd = -1 ∧ moved (cent id).legs Sample.alice = 1 ∧
        (cent id).legs.countP (fun l => l.account = usd) = 1 := by
      refine ⟨?_, ?_, ?_⟩ <;> rfl
    rw [List.map_cons, List.flatMap_cons, moved_append, moved_append, List.countP_append, husd, halice, hcount, hone.1,
      hone.2.1, hone.2.2, List.length_cons]
    omega

/-- Nothing is held against one more. -/
theorem Paid.verdict {ids : List Uuid} {w : postgres.World} (h : Paid ids w) {id : Uuid} (hnew : id ∉ ids)
    (hlen : ids.length < 64) : w.db.book.verdict Int8 (some "alice") (cent id) = none := by
  have hworld : w.db.book.chart usd = some (worldAccount "USD" 0).terms := congrArg (Option.map AccountRow.terms) h.world
  have halice : w.db.book.chart Sample.alice = some (AccountRow.terms ⟨.user, "USD", some 0, none, some "alice", 0⟩) :=
    congrArg (Option.map AccountRow.terms) h.alice
  obtain ⟨husd, hbalance, -⟩ := moved_cents ids
  rw [← h.entries] at husd hbalance
  have after : ∀ {i l}, (cent id).legs[i]? = some l →
      (l = ⟨usd, -1⟩ ∧ w.db.book.after (cent id).legs i l = -ids.length - 1) ∨
        (l = ⟨Sample.alice, 1⟩ ∧ w.db.book.after (cent id).legs i l = ids.length + 1) := by
    intro i l hl
    match i with
    | 0 =>
      cases hl
      refine .inl ⟨rfl, ?_⟩
      show moved (w.db.book.entries.flatMap Entry.legs) usd + -1 = _
      rw [husd]
      omega
    | 1 =>
      cases hl
      refine .inr ⟨rfl, ?_⟩
      show moved (w.db.book.entries.flatMap Entry.legs) Sample.alice + 1 = _
      rw [hbalance]
    | _ + 2 => cases hl
  refine Book.verdict_eq_none.2 ⟨Book.screen_eq_none.2 ?_, ?_, ?_, ?_, ?_⟩
  · simp only [cent, List.forall_mem_cons]
    exact ⟨⟨_, hworld, rfl⟩, ⟨_, halice, rfl⟩, List.forall_mem_nil _⟩
  · refine Bool.eq_false_iff.2 fun hbarred => ?_
    obtain ⟨p, -, l, hl, hneg, hnone⟩ := Book.barred_iff.1 hbarred
    rcases List.mem_pair.1 hl with rfl | rfl
    · cases hnone _ hworld
    · exact absurd hneg (by decide)
  · refine Bool.eq_false_iff.2 fun hshort => ?_
    obtain ⟨i, l, terms, floor, hl, hterms, hfloor, hlt⟩ := Book.short_iff.1 hshort
    rcases after hl with ⟨rfl, -⟩ | ⟨rfl, hafter⟩
    · cases hworld.symm.trans hterms
      cases hfloor
    · cases halice.symm.trans hterms
      cases hfloor
      omega
  · refine List.find?_eq_none.2 fun e he hid => ?_
    rw [h.entries] at he
    obtain ⟨id', hmem, rfl⟩ := List.mem_map.1 he
    exact hnew ((of_decide_eq_true hid : id' = id) ▸ hmem)
  · refine Bool.eq_false_iff.2 fun hunfit => ?_
    obtain ⟨i, l, hl, hunfit⟩ := Book.unfit_iff.1 hunfit
    rcases after hl with ⟨rfl, hafter⟩ | ⟨rfl, hafter⟩ <;>
      · rw [hafter] at hunfit
        simp only [Int8] at hunfit
        omega

theorem Paid.step {ids : List Uuid} {w : postgres.World} (h : Paid ids w) {id : Uuid} (hnew : id ∉ ids)
    (hlen : ids.length < 64) : Paid (ids ++ [id]) (serve (digest []) (payCent id) w).2 := by
  have hproper : proper w.db (payCent id) :=
    ⟨(by decide : Request.Admitted (payCent deposit)), usd.canonical_text, Sample.alice.canonical_text⟩
  have keeps : ∀ {u row}, w.db.accounts.get? u = some row →
      (serve (digest []) (payCent id) w).2.db.accounts.get? u = some row := by
    intro u row hrow
    rcases @serve_committed (digest []) (payCent id) w with hkept | ⟨r, ws, -, hc, hdb⟩
    · rwa [hkept]
    · rw [hdb]
      exact hc.account hrow
  refine ⟨?_, keeps h.world, keeps h.alice, ?_⟩
  · obtain ⟨worldIds, createdAt, entrySize, hserved⟩ := h.reachable
    exact ⟨worldIds, createdAt, entrySize, .step (payCent id) hserved hproper⟩
  · have hbook : (serve (digest []) (payCent id) w).2.db.book = _ :=
      congrArg Office.book (h.reachable.filed.serve hproper.1 hproper.2).2
    obtain ⟨journal, hch, -⟩ := @transfer_checked (digest []) (pay usd.text Sample.alice.text "1" "alice") ⟨some "USD", some 2⟩ 1
      (by decide) (by decide) (by decide) (by decide) id
    rw [hbook]
    show (w.db.office.transfer (digest []) (pay usd.text Sample.alice.text "1" "alice") id).2.book.entries = _
    rw [Office.transfer_enters (digest []) _ hch rfl rfl rfl (h.verdict hnew hlen)]
    show w.db.book.entries ++ [cent id] = _
    rw [h.entries, List.map_append]
    rfl

theorem Paid.serially {ids more : List Uuid} {w : postgres.World} (h : Paid ids w) (hnodup : (ids ++ more).Nodup)
    (hlen : (ids ++ more).length ≤ 64) : Paid (ids ++ more) (serially (digest []) (more.map payCent) w) := by
  induction more generalizing ids w with
  | nil => exact (List.append_nil ids).symm ▸ h
  | cons id more ih =>
    rw [List.append_cons] at hnodup hlen ⊢
    refine ih (h.step ?_ ?_) hnodup hlen
    · rw [List.append_assoc] at hnodup
      exact fun hmem => (List.nodup_append.1 hnodup).2.2 id hmem id (List.mem_cons_self) rfl
    · simp only [List.length_append, List.length_singleton] at hlen
      omega

theorem paid_many : ∃ (ids : List Uuid) (w : postgres.World), Paid ids w ∧ ids.length = 64 := by
  have hlen : ((List.finRange 64).map numbered).length = 64 := by rw [List.length_map, List.length_finRange]
  have hpaid : Paid ((List.finRange 64).map numbered) _ := paid_start.serially
    ((List.nodup_finRange 64).map numbered_injective) hlen.le
  exact ⟨_, _, hpaid, hlen⟩

end Sample

namespace Dashboard

/-- A page opened on a statement of 64 entries: a click, its answer, and the answer shown. -/
theorem statementView_faithful_deposits : ∃ (c : Config postgres (Fin 2) Reply) (initial : Statement) (s : Browsing (Fin 2)),
    postgres.readOver (StatementService.forAccount Sample.usd.text "alice" pageSize none) (between c c) = .ok (some initial) ∧
    initial.entries.length = 50 ∧
    Relation.ReflTransGen (Browsing.Step Sample.usd.text "alice") (.opened initial c) s ∧
    s.view.cursor = none ∧ s.view.entries = c.db.statementOf Sample.usd ∧ s.view.entries.length = 64 := by
  obtain ⟨ids, w, ⟨hw, hworld, -, hentries⟩, hlen⟩ := Sample.paid_many
  have hadmitted : Reachable (Sample.digest []) admitted w := hw.mono fun _ _ h => h.1
  let c : Config postgres (Fin 2) Reply := Config.start w fun _ => Sample.fundAlice.call (Sample.digest [])
  let rows := c.db.statementOf Sample.usd
  have hrows : rows.length = 64 := by
    have hcount := hw.recorded.length_statementOf Sample.usd
    rwa [hentries, (Sample.moved_cents ids).2.2, hlen] at hcount
  have hordered : Ordered c.db.postings := hw.filed.ordered
  have hnames : Names c.db Sample.usd.text Sample.usd (worldAccount "USD" 0) := ⟨Sample.usd.parse?_text, hworld⟩
  have hread : ∀ cursor, postgres.readOver (StatementService.forAccount Sample.usd.text "alice" pageSize cursor) (between c c) =
      .ok (some (.ofPage (page StatementEntry.seq pageSize cursor rows))) := by
    intro cursor
    obtain ⟨account, haccount⟩ := hw.recorded.toDomain hworld
    have hpaged := @forAccount_readOver (between c c) _ Sample.usd.text "alice" _ _ account pageSize cursor .pure hnames
      haccount (.inl rfl) hordered
    rwa [Prog.bind_pure] at hpaged
  have hcursor : cursorAt StatementEntry.seq rows 50 = some (rows[49]).seq := cursorAt_succ (by omega)
  have hfirst : page StatementEntry.seq pageSize none rows = ⟨rows.take 50, some (rows[49]).seq⟩ := by
    have hpage := @page_cursorAt _ _ _ StatementEntry.seq rows 0 pageSize (hordered.increasing Sample.usd) (by decide)
    rw [if_pos (by rw [hrows]; decide)] at hpage
    exact hpage.trans (congrArg _ hcursor)
  have hsecond : page StatementEntry.seq pageSize (some (rows[49]).seq) rows = ⟨(rows.drop 50).take 50, none⟩ := by
    have hpage := @page_cursorAt _ _ _ StatementEntry.seq rows 50 pageSize (hordered.increasing Sample.usd) (by decide)
    rw [if_neg (by rw [hrows]; decide), hcursor] at hpage
    exact hpage
  let asked : Browsing (Fin 2) := ⟨⟨rows.take 50, some (rows[49]).seq, true, none, false⟩, [.asked (rows[49]).seq], c, c⟩
  let answered : Browsing (Fin 2) := ⟨asked.view, [.answered ⟨(rows.drop 50).take 50, none⟩ c], c, c⟩
  let s : Browsing (Fin 2) := ⟨⟨rows.take 50 ++ (rows.drop 50).take 50, none, false, none, false⟩, [], c, c⟩
  have hinitial := hread none
  have hanswer := hread (some (rows[49]).seq)
  rw [hfirst] at hinitial
  rw [hsecond] at hanswer
  have hclick : Browsing.Step Sample.usd.text "alice" (.opened ⟨rows.take 50, some (rows[49]).seq⟩ c) asked := .click rfl
  have hanswered : Browsing.Step Sample.usd.text "alice" asked answered :=
    @Browsing.Step.answer _ _ _ _ _ asked [] [] _ c c _ rfl (.refl c) (.refl c) hanswer
  have hshown : Browsing.Step Sample.usd.text "alice" answered s := @Browsing.Step.show _ _ _ _ _ answered [] [] _ c rfl
  have hrun := ((Relation.ReflTransGen.single hclick).tail hanswered).tail hshown
  have hcomplete := ((statementView_faithful hadmitted (.refl c) hnames (.inl rfl) (.refl c) hinitial hrun).2.2.2.2.2 rfl).1
  refine ⟨c, _, s, hinitial, ?_, hrun, rfl, hcomplete, ?_⟩
  · show (rows.take 50).length = 50
    rw [List.length_take, hrows]
    rfl
  · rw [hcomplete]
    exact hrows

end Dashboard

end MiniLedger
