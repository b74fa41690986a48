import MiniLedger.Ledger.BookLaws
import MiniLedger.Ledger.StatementPages

/-!
# What a subject reads

The reads behind `GET /accounts`, `GET /accounts/:id` and `GET /accounts/:id/statement`.
Each account and each balance is a statement of its own on the pool, so a response may join
rows of different moments; still every balance shown is the book's at the moment it was
read. And a subject is shown its own accounts and the system's only: what it reads is the
same whatever the others do with accounts it may not see, and whether those exist.
-/

namespace MiniLedger

open Bookkeeping Collections Sessions

variable {sha256 : String → String} {t t' db : Tables} {w : postgres.World} {u : Uuid} {text subject : String}

/-! ## The source -/

namespace AccountsRepository

/-- The rows of `WHERE owner_id = $1 OR type = 'system'`, in the order of the table. -/
def visibleRows (t : Tables) (ownerId : String) : List (Uuid × AccountRow) :=
  t.accounts.entries.filter fun e => e.2.ownerId == some ownerId || e.2.type == .system

def listVisibleTo (t : Tables) (ownerId : String) : Except Failure (List Account) := do
  bindText ownerId
  (visibleRows t ownerId).mapM fun e => toDomain e.1 e.2

end AccountsRepository

namespace AccountBalancesRepository

def find (accountId : AccountId) : Reads (Option Int) := do
  let row ← ask (.balance accountId.value)
  return row.map BalanceRow.balance

end AccountBalancesRepository

namespace AccountsService

def getVisible (id subject : String) : Reads (Option Account) := do
  match ← AccountsRepository.findById ⟨id⟩ with
  | none => return none
  | some account => return if account.isSystem || account.isOwnedBy subject then some account else none

def balanceOf (id : AccountId) : Reads Int := do
  let balance ← AccountBalancesRepository.find id
  return balance.getD 0

end AccountsService

structure AccountResponse where
  id : String
  type : AccountType
  currency : Option String
  balance : String
  overdraftFloor : Option String
  /-- milliseconds since the epoch -/
  createdAt : Nat
  deriving DecidableEq

namespace AccountsController

def toResponse (account : Account) (balance : Int) : AccountResponse :=
  ⟨account.id.value, account.type, account.currency.code, toString balance, account.overdraftFloor.map toString,
    account.createdAt⟩

/-- `none` is answered with `404 Account not found`. -/
def getById (id subject : String) : Reads (Option AccountResponse) := do
  match ← AccountsService.getVisible id subject with
  | none => return none
  | some account =>
    let balance ← AccountsService.balanceOf account.id
    return some (toResponse account balance)

/-- The list as of the tables `t`, the balance of each account as of its own moment. -/
def list (subject : String) (t : Tables) (moment : AccountId → Tables) : Except Failure (List AccountResponse) := do
  let accounts ← AccountsRepository.listVisibleTo t subject
  accounts.mapM fun account => do
    let balance ← postgres.read (moment account.id) (AccountsService.balanceOf account.id)
    return toResponse account balance

end AccountsController

/-! ## On recorded tables -/

/-- The row of `u`, if the subject is shown it. -/
def Tables.shown (t : Tables) (subject : String) (u : Uuid) : Option AccountRow :=
  (t.accounts.get? u).filter fun row => row.ownerId == some subject || row.type == .system

def AccountRow.response (row : AccountRow) (u : Uuid) (balance : Int) : AccountResponse :=
  ⟨u.text, row.type, some row.currency, toString balance, row.overdraftFloor.map toString, row.createdAt⟩

def Tables.storedBalance (t : Tables) (u : Uuid) : Int := ((t.balances.get? u).map BalanceRow.balance).getD 0

theorem Tables.shown_eq_some {row : AccountRow} :
    t.shown subject u = some row ↔ t.accounts.get? u = some row ∧ row.VisibleTo subject := by
  simp [Tables.shown, AccountRow.VisibleTo, or_comm]

theorem mem_visibleRows {e : Uuid × AccountRow} :
    e ∈ AccountsRepository.visibleRows t subject ↔ t.shown subject e.1 = some e.2 := by
  rw [AccountsRepository.visibleRows, List.mem_filter, Tables.shown_eq_some, Keyed.get?_eq_some_iff]
  simp [AccountRow.VisibleTo, or_comm]

/-- A stored account is read as its row says. -/
theorem Recorded.reads (h : Recorded t) {row : AccountRow} (hrow : t.accounts.get? u = some row) :
    ∃ account, AccountsRepository.toDomain u row = .ok account ∧ account.id = ⟨u.text⟩ ∧
      (account.isSystem || account.isOwnedBy subject) = (row.ownerId == some subject || row.type == .system) ∧
      ∀ balance, AccountsController.toResponse account balance = row.response u balance := by
  obtain ⟨currency, hcurrency, hcode⟩ := Currency.of_supported (h.account u row hrow).1
  refine ⟨⟨⟨u.text⟩, row.type, currency, row.overdraftFloor, row.handle, row.ownerId, row.createdAt⟩, ?_, rfl, ?_, ?_⟩
  · rw [AccountsRepository.toDomain, hcurrency]
  · exact Bool.or_comm ..
  · intro balance
    rw [AccountsController.toResponse, AccountRow.response, hcode]

/-- The account is read first, its balance next. -/
theorem getById_readOver (snapshots : Nat → Tables) (h : Recorded (snapshots 0)) :
    postgres.readOver (AccountsController.getById text subject) snapshots =
      (castUuid text).map fun u => ((snapshots 0).shown subject u).map fun row =>
        row.response u ((snapshots 1).storedBalance u) := by
  cases hc : castUuid text with
  | error e =>
    simp only [AccountsController.getById, AccountsService.getVisible, AccountsRepository.findById, Prog.ask,
      Prog.query_bind, Engine.readOver, Query.answer, hc, bind, Except.bind]
    rfl
  | ok u =>
    cases hrow : (snapshots 0).accounts.get? u with
    | none =>
      simp only [AccountsController.getById, AccountsService.getVisible, AccountsRepository.findById, Prog.ask,
        Prog.query_bind, Prog.pure_bind, Engine.readOver, Query.answer, hc, bind, Except.bind, pure, Except.pure, hrow,
        Option.map_none, Tables.shown, Except.map, Option.filter]
    | some row =>
      obtain ⟨account, hd, hid, hseen, hresponse⟩ := @Recorded.reads (snapshots 0) u subject h row hrow
      have hu : castUuid account.id.value = .ok u := by
        rw [hid]
        exact castUuid_ok.2 u.parse?_text
      simp only [AccountsController.getById, AccountsService.getVisible, AccountsRepository.findById, Prog.ask,
        Prog.query_bind, Prog.pure_bind, Engine.readOver, Query.answer, hc, bind, Except.bind, pure, Except.pure, hrow,
        Option.map_some, hd, Prog.ofExcept, Tables.shown, Except.map, hseen]
      cases hvisible : (row.ownerId == some subject || row.type == .system) with
      | false => simp [Option.filter, hvisible, Engine.readOver]
      | true =>
        simp only [Option.filter, hvisible, if_true, Option.map_some, AccountsService.balanceOf, AccountBalancesRepository.find,
          Prog.ask, Prog.query_bind, Prog.pure_bind, Engine.readOver, Query.answer, hu, bind, Except.bind, pure, Except.pure,
          hresponse]
        rfl

/-- The visible accounts are listed first, each balance read at its own moment. -/
theorem list_eq (h : Recorded t) (moment : AccountId → Tables) :
    AccountsController.list subject t moment =
      (bindText subject).map fun _ => (AccountsRepository.visibleRows t subject).map fun e =>
        e.2.response e.1 ((moment ⟨e.1.text⟩).storedBalance e.1) := by
  rw [AccountsController.list, AccountsRepository.listVisibleTo]
  cases bindText (some subject) with
  | error e => rfl
  | ok _ =>
  refine mapM_mapM_ok fun e he => ?_
  obtain ⟨hrow, -⟩ := Tables.shown_eq_some.1 (mem_visibleRows.1 he)
  obtain ⟨account, hd, hid, -, hresponse⟩ := @Recorded.reads t e.1 subject h e.2 hrow
  refine ⟨account, hd, ?_⟩
  have hu : castUuid e.1.text = .ok e.1 := castUuid_ok.2 e.1.parse?_text
  simp only [hid, AccountsService.balanceOf, AccountBalancesRepository.find, Prog.ask, Prog.query_bind,
    Prog.pure_bind, Engine.read, Query.answer, hu, bind, Except.bind, pure, Except.pure, hresponse]
  rfl

/-- The page of at most `limit` rows of `u` behind a cursor. -/
def Tables.page (t : Tables) (u : Uuid) (limit : Nat) (cursor : Option Nat) : List StatementEntry :=
  ((Tables.bySeq ((t.postingsFor u).filter fun p => ∀ seq ∈ cursor, seq < p.seq)).take limit).map PostingRow.entry

/-- What `forAccount` makes of the `limit + 1` rows it asks for. -/
def Statement.cut (limit : Nat) (rows : List StatementEntry) : Statement :=
  ⟨rows.take limit, if limit < rows.length then (rows.take limit).getLast?.map StatementEntry.seq else none⟩

theorem forAccount_shown (snapshots : Nat → Tables) (h : Recorded (snapshots 0)) (limit : Nat) (cursor : Option Nat) :
    postgres.readOver (StatementService.forAccount text subject limit cursor) snapshots =
      (castUuid text).map fun u => ((snapshots 0).shown subject u).map fun _ =>
        Statement.cut limit ((snapshots 1).page u (limit + 1) cursor) := by
  cases hc : castUuid text with
  | error e =>
    simp only [StatementService.forAccount, AccountsRepository.findById, Prog.ask, Prog.query_bind, Engine.readOver,
      Query.answer, hc, bind, Except.bind]
    rfl
  | ok u =>
    cases hrow : (snapshots 0).accounts.get? u with
    | none =>
      simp only [StatementService.forAccount, AccountsRepository.findById, Prog.ask, Prog.query_bind, Prog.pure_bind,
        Engine.readOver, Query.answer, hc, bind, Except.bind, pure, Except.pure, hrow, Option.map_none, Tables.shown,
        Except.map, Option.filter]
    | some row =>
      obtain ⟨account, hd, -, hseen, -⟩ := @Recorded.reads (snapshots 0) u subject h row hrow
      have hseen : (!account.isSystem && !account.isOwnedBy subject) =
          !(row.ownerId == some subject || row.type == .system) := by rw [← hseen, Bool.not_or]
      simp only [StatementService.forAccount, AccountsRepository.findById, Prog.ask, Prog.query_bind, Prog.pure_bind,
        Engine.readOver, Query.answer, hc, bind, Except.bind, pure, Except.pure, hrow, Option.map_some, hd, Prog.ofExcept,
        Tables.shown, Except.map, hseen]
      cases hvisible : (row.ownerId == some subject || row.type == .system) with
      | false => simp [Option.filter, hvisible, Engine.readOver]
      | true =>
        simp only [Option.filter, hvisible, Bool.not_true, Bool.false_eq_true, if_false, if_true, Option.map_some,
          StatementRepository.page, Prog.ask, Prog.query_bind, Prog.pure_bind,
          Engine.readOver, Query.answer, hc, bind, Except.bind, pure, Except.pure, List.map_map]
        rfl

/-! ## What others do out of sight -/

/-- The subject is shown the same on both. -/
structure Unseen (subject : String) (t t' : Tables) : Prop where
  rows : AccountsRepository.visibleRows t' subject = AccountsRepository.visibleRows t subject
  balances : ∀ u row, t.shown subject u = some row → t'.balances.get? u = t.balances.get? u
  postings : ∀ u row, t.shown subject u = some row → t'.postingsFor u = t.postingsFor u

theorem Unseen.refl (subject : String) (t : Tables) : Unseen subject t t := ⟨rfl, fun _ _ _ => rfl, fun _ _ _ => rfl⟩

theorem Unseen.shown (h : Unseen subject t t') (u : Uuid) : t'.shown subject u = t.shown subject u := by
  refine Option.ext fun row => ?_
  rw [← mem_visibleRows (e := (u, row)), ← mem_visibleRows (e := (u, row)), h.rows]

theorem Unseen.trans {t'' : Tables} (h : Unseen subject t t') (h' : Unseen subject t' t'') : Unseen subject t t'' := by
  refine ⟨h'.rows.trans h.rows, fun u row hu => ?_, fun u row hu => ?_⟩
  · exact (h'.balances u row ((h.shown u).trans hu)).trans (h.balances u row hu)
  · exact (h'.postings u row ((h.shown u).trans hu)).trans (h.postings u row hu)

/-- The subject sees the account `u`. -/
def Sees (t : Tables) (subject : String) (u : Uuid) : Prop := ∃ row, t.shown subject u = some row

/-- The request is about accounts the subject does not see. -/
def Request.HiddenFrom (subject : String) (t : Tables) : Request → Prop
  | .open_ input _ _ => input.ownerId ≠ subject
  | .transfer input _ => ∀ u, Sees t subject u → Uuid.parse? input.from_ ≠ some u ∧ Uuid.parse? input.to_ ≠ some u
  | .reverse transactionId _ =>
    ∀ p ∈ t.postings, Uuid.parse? transactionId = some p.transactionId → ¬ Sees t subject p.accountId

/-- What is hidden was hidden before. -/
theorem Request.HiddenFrom.mono {request : Request} (h : request.HiddenFrom subject t')
    (haccounts : ∀ u row, t.accounts.get? u = some row → t'.accounts.get? u = some row)
    (hpostings : t.postings <+: t'.postings) : request.HiddenFrom subject t := by
  have hsees : ∀ u, Sees t subject u → Sees t' subject u := by
    rintro u ⟨row, hrow⟩
    obtain ⟨hrow, hvisible⟩ := Tables.shown_eq_some.1 hrow
    exact ⟨row, Tables.shown_eq_some.2 ⟨haccounts u row hrow, hvisible⟩⟩
  cases request with
  | open_ => exact h
  | transfer => exact fun u hu => h u (hsees u hu)
  | reverse => exact fun p hp hparse hu => h p (hpostings.subset hp) hparse (hsees _ hu)

/-- A booking on accounts the subject does not see. -/
theorem Booked.unseen {journal : JournalTransaction} {currency : Currency} {options : PostOptions} {b : Booking}
    (hb : Booked db t' b) (hv : b.Valid sha256 db journal currency options)
    (h : ∀ u, Sees db subject u → ∀ p ∈ journal.postings, Uuid.parse? p.accountId.value ≠ some u) : Unseen subject db t' := by
  refine ⟨?_, fun u row hu => hb.untouched hv (h u ⟨row, hu⟩), fun u row hu => ?_⟩
  · rw [AccountsRepository.visibleRows, hb.accounts]
    rfl
  · have hnone : (b.rows.filter fun p => p.accountId = u) = [] := by
      refine List.filter_eq_nil_iff.2 fun p hp hpu => ?_
      obtain ⟨-, q, hq, hacc, -⟩ := hv.row_leg hp
      rw [of_decide_eq_true hpu] at hacc
      exact h u ⟨row, hu⟩ q hq hacc
    rw [Tables.postingsFor, hb.postings, List.filter_append, hnone, List.append_nil]
    rfl

theorem Committed.unseen {request : Request} {r : Reply} {ws : List Write} (hc : Committed sha256 db request r ws)
    (hidden : request.HiddenFrom subject db) : Unseen subject db (postgres.view db ws) := by
  cases hc with
  | replayed => exact .refl subject db
  | transferred currency amount journal b hch hv =>
    refine (booked_transfer ..).unseen hv fun u hu p hp => ?_
    rw [hch.postings] at hp
    obtain ⟨hfrom, hto⟩ := hidden u hu
    obtain rfl | rfl : p = debit _ amount currency ∨ p = credit _ amount currency := by
      simpa [transferLegs] using hp
    · exact hfrom
    · exact hto
  | reversed target original currency journal b hparse ho hcomp _ hv _ =>
    refine (booked_writes ..).unseen hv fun u hu p hp hpu => ?_
    rw [hcomp.postings] at hp
    obtain ⟨leg, hleg, rfl⟩ := List.mem_map.1 hp
    obtain ⟨row, -, rfl⟩ := Tables.original_eq_some ho
    obtain ⟨posting, hposting, rfl⟩ := List.mem_map.1 hleg
    have hmem : posting ∈ db.postingsOf target := (List.perm_insertionSort ..).subset hposting
    obtain ⟨hmem, hid⟩ := List.mem_filter.1 hmem
    have hacc : posting.accountId = u := Option.some.inj (posting.accountId.parse?_text.symm.trans hpu)
    exact hidden posting hmem (hparse.trans (congrArg some (of_decide_eq_true hid).symm)) (hacc ▸ hu)
  | @opened input id now currency code _ _ hnew hbalance =>
    have hne : ∀ u row, db.shown subject u = some row → u ≠ id := by
      intro u row hu he
      rw [he] at hu
      rw [(Tables.shown_eq_some.1 hu).1] at hnew
      cases hnew
    rw [view_opened]
    refine ⟨?_, fun u row hu => Keyed.get?_set_of_ne _ _ (hne u row hu), fun _ _ _ => rfl⟩
    have howner : input.ownerId ≠ subject := hidden
    simp [AccountsRepository.visibleRows, Keyed.entries_set_of_none hnew, List.filter_append, howner]

/-! ## Runs -/

section

variable {ι : Type} [DecidableEq ι] [Fintype ι] {requests : ι → Request} {c : Config postgres ι Reply}

omit [DecidableEq ι] [Fintype ι] in
/-- Requests about accounts the subject does not see change nothing it is shown. -/
theorem chronicle_unseen {log : List (Commit postgres ι Reply)}
    (h : Chronicle postgres (fun i => (requests i).call sha256) w.db log db)
    (hidden : ∀ e ∈ log, (requests e.session).HiddenFrom subject db) : Unseen subject w.db db := by
  induction h with
  | nil => exact .refl subject _
  | @snoc log db e hlog hc ih =>
    have hcommitted := request_commits hc
    have before : ∀ request : Request, request.HiddenFrom subject (postgres.view db e.writes) →
        request.HiddenFrom subject db := by
      intro request hhidden
      refine hhidden.mono (fun u row hrow => hcommitted.account hrow) ?_
      have hview : (postgres.view db e.writes).postings = db.postings ++ e.writes.filterMap Write.posting? :=
        view_postings ..
      rw [hview]
      exact List.prefix_append ..
    refine (ih fun e' he' => before _ (hidden e' (List.mem_append_left _ he'))).trans (hcommitted.unseen (before _ ?_))
    exact hidden e (List.mem_append_right _ List.mem_cons_self)

theorem reaches_unseen (hw : Reachable sha256 admitted w) (h : Reaches (Config.start w fun i => (requests i).call sha256) c)
    (hidden : ∀ e ∈ c.log, (requests e.session).HiddenFrom subject c.db) : Unseen subject w.db c.db :=
  chronicle_unseen (h.chronicle (D := discipline) hw.sound fun _ => request_disciplined _) hidden

/-- **Nothing out of sight shows.** While requests about accounts the subject does not see
run and commit, at whatever moments its reads fall, `GET /accounts`, `GET /accounts/:id` and
each statement page answer the subject as before the first of them. -/
theorem run_hidden (moments : Nat → Config postgres ι Reply) (moment : AccountId → Config postgres ι Reply)
    (hw : Reachable sha256 admitted w) (hreach : ∀ k, Reaches (Config.start w fun i => (requests i).call sha256) (moments k))
    (hreach' : ∀ id, Reaches (Config.start w fun i => (requests i).call sha256) (moment id))
    (hidden : ∀ k, ∀ e ∈ (moments k).log, (requests e.session).HiddenFrom subject (moments k).db)
    (hidden' : ∀ id, ∀ e ∈ (moment id).log, (requests e.session).HiddenFrom subject (moment id).db) :
    (∀ text, postgres.readOver (AccountsController.getById text subject) (fun k => (moments k).db) =
        postgres.readOver (AccountsController.getById text subject) fun _ => w.db) ∧
      (∀ text limit cursor, postgres.readOver (StatementService.forAccount text subject limit cursor)
          (fun k => (moments k).db) =
        postgres.readOver (StatementService.forAccount text subject limit cursor) fun _ => w.db) ∧
      AccountsController.list subject (moments 0).db (fun id => (moment id).db) =
        AccountsController.list subject w.db fun _ => w.db := by
  have unseen : ∀ k, Unseen subject w.db (moments k).db := fun k => reaches_unseen hw (hreach k) (hidden k)
  have hrecorded : Recorded (moments 0).db := reaches_invariant hw (hreach 0) hw.recorded fun hi hc => hi.commit hc
  have balance : ∀ {db u row}, Unseen subject w.db db → w.db.shown subject u = some row →
      db.storedBalance u = w.db.storedBalance u := by
    intro db u row h hu
    rw [Tables.storedBalance, h.balances u row hu]
    rfl
  refine ⟨fun text => ?_, fun text limit cursor => ?_, ?_⟩
  · rw [getById_readOver _ hrecorded, getById_readOver (fun _ => w.db) hw.recorded]
    refine congrArg (fun f => (castUuid text).map f) (funext fun u => ?_)
    rw [(unseen 0).shown u]
    refine Option.map_congr fun row hu => ?_
    rw [balance (unseen 1) hu]
  · rw [forAccount_shown _ hrecorded, forAccount_shown (fun _ => w.db) hw.recorded]
    refine congrArg (fun f => (castUuid text).map f) (funext fun u => ?_)
    rw [(unseen 0).shown u]
    refine Option.map_congr fun row hu => ?_
    rw [Tables.page, (unseen 1).postings u row hu]
    rfl
  · rw [list_eq hrecorded, list_eq hw.recorded, (unseen 0).rows]
    refine congrArg (fun l => (bindText subject).map fun _ => l) (List.map_congr_left fun e he => ?_)
    rw [balance (reaches_unseen hw (hreach' _) (hidden' _)) (mem_visibleRows.1 he)]

end

namespace Sample

/-- Alice and Bob open accounts at once. -/
def twoOpen : Fin 2 → Request
  | 0 => openAlice
  | 1 => openBob

def openingInterleaved : List (Act postgres (Fin 2)) :=
  List.replicate 3 (.advance one) ++ List.replicate 4 (.advance other) ++ [.advance one]

end Sample

/-- Carol asks for Alice's account while it is opened, and after. -/
theorem run_hidden_opened : ∃ c : Config postgres (Fin 2) Reply,
    (Config.start (migrated Sample.worldIds 0 Sample.entrySize) fun i => (Sample.twoOpen i).call (Sample.digest [])).play
      Sample.openingInterleaved = some c ∧ (c.db.accounts.get? Sample.alice).isSome ∧
    postgres.readOver (AccountsController.getById Sample.alice.text "carol") (fun _ => c.db) =
      postgres.readOver (AccountsController.getById Sample.alice.text "carol") fun _ => (migrated Sample.worldIds 0 Sample.entrySize).db := by
  have h : ((Config.start (migrated Sample.worldIds 0 Sample.entrySize) fun i => (Sample.twoOpen i).call (Sample.digest [])).play
      Sample.openingInterleaved).any (fun c => (c.db.accounts.get? Sample.alice).isSome) = true := by decide +kernel
  obtain ⟨c, hplay, hsome⟩ := (Option.any_eq_true _ _).1 h
  have hreach : Reaches (Config.start (migrated Sample.worldIds 0 Sample.entrySize) fun i => (Sample.twoOpen i).call (Sample.digest [])) c :=
    .of_play (.refl _) hplay
  have hidden : ∀ i, (Sample.twoOpen i).HiddenFrom "carol" c.db := by
    intro i
    match i with
    | 0 => exact (by decide : "alice" ≠ "carol")
    | 1 => exact (by decide : "bob" ≠ "carol")
  have hall := run_hidden (fun _ => c) (fun _ => c) ⟨Sample.worldIds, 0, Sample.entrySize, .refl⟩ (fun _ => hreach)
    (fun _ => hreach) (fun _ e _ => hidden e.session) fun _ e _ => hidden e.session
  exact ⟨c, hplay, hsome, hall.1 Sample.alice.text⟩

section

variable {ι : Type} [DecidableEq ι] [Fintype ι] {requests : ι → Request} {c : Config postgres ι Reply}

/-- An account some moment shows has the balance of the book at every later one. -/
theorem shown_balance (hw : Reachable sha256 proper w) (hp : ∀ i, proper w.db (requests i)) {d : Config postgres ι Reply}
    (h : Reaches (Config.start w fun i => (requests i).call sha256) c) (h' : Reaches c d) {row : AccountRow}
    (hu : c.db.shown subject u = some row) :
    d.db.storedBalance u = d.db.book.balance u ∧
      ∀ floor, row.overdraftFloor = some floor → floor ≤ d.db.book.balance u := by
  have hrow : d.db.accounts.get? u = some row :=
    reaches_keeps (motive := fun t => t.accounts.get? u = some row) hw h h' (Tables.shown_eq_some.1 hu).1 fun hi hc => hc.account hi
  have hfiled := (reaches_office hw hp (h.trans h')).1
  obtain ⟨s, hs, hbalance, hfloor⟩ := (hfiled.stands (reaches_lawfulBook hw hp (h.trans h'))).1 u row hrow
  refine ⟨?_, fun floor hf => hbalance ▸ hfloor floor hf⟩
  rw [Tables.storedBalance, hs, ← hbalance]
  rfl

/-- **What is shown was true.** While requests run and commit, `GET /accounts/:id` answers
with the account as of its first read and what the postings committed by its second come to,
`GET /accounts` with every visible account and each balance so; and no balance shown is below
the floor. -/
theorem run_shown (moments : Nat → Config postgres ι Reply) (moment : AccountId → Config postgres ι Reply)
    (hw : Reachable sha256 proper w) (hp : ∀ i, proper w.db (requests i))
    (h0 : Reaches (Config.start w fun i => (requests i).call sha256) (moments 0))
    (hruns : ∀ k, Reaches (moments k) (moments (k + 1))) (hlater : ∀ id, Reaches (moments 0) (moment id)) :
    (∀ text, postgres.readOver (AccountsController.getById text subject) (fun k => (moments k).db) =
        (castUuid text).map fun u => ((moments 0).db.shown subject u).map fun row =>
          row.response u ((moments 1).db.book.balance u)) ∧
      AccountsController.list subject (moments 0).db (fun id => (moment id).db) =
        ((bindText subject).map fun _ => (AccountsRepository.visibleRows (moments 0).db subject).map fun e =>
          e.2.response e.1 ((moment ⟨e.1.text⟩).db.book.balance e.1)) ∧
      ∀ u row floor, (moments 0).db.shown subject u = some row → row.overdraftFloor = some floor →
        floor ≤ (moments 1).db.book.balance u ∧ ∀ id, floor ≤ (moment id).db.book.balance u := by
  have hrecorded : Recorded (moments 0).db := (reaches_office hw hp h0).1.recorded
  refine ⟨fun text => ?_, ?_, fun u row floor hu hf => ⟨?_, fun id => ?_⟩⟩
  · rw [getById_readOver _ hrecorded]
    refine congrArg (fun f => (castUuid text).map f) (funext fun u => Option.map_congr fun row hu => ?_)
    rw [(shown_balance hw hp h0 (hruns 0) hu).1]
  · rw [list_eq hrecorded]
    refine congrArg (fun l => (bindText subject).map fun _ => l) (List.map_congr_left fun e he => ?_)
    rw [(shown_balance hw hp h0 (hlater _) (mem_visibleRows.1 he)).1]
  · exact (shown_balance hw hp h0 (hruns 0) hu).2 floor hf
  · exact (shown_balance hw hp h0 (hlater id) hu).2 floor hf

end

/-- Alice's id in braces, without hyphens and in upper case. -/
def Sample.braced : String := "\x7b0000000000004000800000000000000A\x7d"

/-- Alice's account between two deposits and after them, asked for under that spelling. -/
theorem run_shown_deposits : ∃ c : Config postgres (Fin 2) Reply,
    (Config.start Sample.emptyAccounts fun i =>
      (Sample.twoDeposits i).call (Sample.digest Sample.twoDepositsDigests)).play Sample.overlapping = some c ∧
    postgres.readOver (AccountsController.getById Sample.braced "alice")
        (fun k => (Sample.duringDeposits c k).db) =
      .ok ((Sample.emptyAccounts.db.shown "alice" Sample.alice).map fun row =>
        row.response Sample.alice (c.db.book.balance Sample.alice)) := by
  obtain ⟨c, hplay, -⟩ := Sample.overlapping_play
  have hreach : Reaches (Sample.duringDeposits c 0) c := .of_play (.refl _) hplay
  have hruns : ∀ k, Reaches (Sample.duringDeposits c k) (Sample.duringDeposits c (k + 1)) := by
    intro k
    cases k with
    | zero => exact hreach
    | succ k => exact .refl _
  have hcast : castUuid Sample.braced = .ok Sample.alice := castUuid_ok.2 (by decide +kernel)
  have hshown : postgres.readOver (AccountsController.getById Sample.braced "alice") (fun k => (Sample.duringDeposits c k).db) =
      (castUuid Sample.braced).map _ :=
    (run_shown (Sample.duringDeposits c) (fun _ => c) Sample.deposits_proper.1 Sample.deposits_proper.2 (.refl _) hruns
      fun _ => hreach).1 _
  rw [hcast] at hshown
  exact ⟨c, hplay, hshown⟩

end MiniLedger
