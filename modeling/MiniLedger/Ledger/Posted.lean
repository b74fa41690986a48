import Mathlib.Data.List.Dedup
import MiniLedger.Collections.Lists
import MiniLedger.Ledger.Effects
import MiniLedger.Ledger.Legs

/-!
# What `post` writes

`Booking` gathers what one call of `post` computed and wrote, `Booking.Valid` how that
hangs together with the tables the transaction saw. `post_yields` is the one place where
the program of `post` is taken apart; what a transfer or a reversal does to the ledger is
read off `Valid`.
-/

namespace MiniLedger

open Collections Sessions

variable {db t : Tables} {ws ws' : List Write}

/-! ## The repositories -/

namespace AccountsRepository

theorem toDomain_ok {id : Uuid} {row : AccountRow} {a : Account} (h : toDomain id row = .ok a) :
    a.id.value = id.text ∧ a.type = row.type ∧ a.overdraftFloor = row.overdraftFloor ∧ a.ownerId = row.ownerId ∧
      Currency.of row.currency = .ok a.currency := by
  unfold toDomain at h
  split at h
  · cases h
  · rename_i hc; cases h; exact ⟨rfl, rfl, rfl, rfl, hc⟩

/-- What `findById` reads. -/
theorem findById_read {id : AccountId} {o : Option Account} (h : postgres.read t (findById id) = .ok o) :
    ∃ u, Uuid.parse? id.value = some u ∧ ((t.accounts.get? u = none ∧ o = none) ∨
      ∃ row a, t.accounts.get? u = some row ∧ toDomain u row = .ok a ∧ o = some a) := by
  simp only [findById, Prog.ask, Prog.monad_bind, Prog.query_bind, Prog.pure_bind, Engine.read] at h
  split at h
  · rename_i row hrow
    simp only [Query.answer, except_bind_ok, castUuid_ok, except_pure_ok] at hrow
    obtain ⟨u, hu, rfl⟩ := hrow
    refine ⟨u, hu, ?_⟩
    cases hg : t.accounts.get? u with
    | none => rw [hg] at h; cases h; exact .inl ⟨rfl, rfl⟩
    | some row =>
      rw [hg] at h
      refine .inr ⟨row, ?_⟩
      cases hd : toDomain u row with
      | error e => simp only [Option.map_some, hd, Prog.ofExcept, Prog.throw_bind, Engine.read] at h; cases h
      | ok a => simp only [Option.map_some, hd, Prog.ofExcept, Prog.pure_bind] at h; cases h; exact ⟨a, rfl, rfl, rfl⟩
  · cases h

end AccountsRepository

namespace AccountBalancesRepository

theorem lockEach_yields {ids : List String} {start out : Keyed String BalanceRow}
    (h : postgres.Yields db (lockEach ids start) ws out ws') :
    ws' = ws ∧ ∃ rows, List.Forall₂ (fun id row => ∃ u, Uuid.parse? id = some u ∧
      (postgres.view db ws).balances.get? u = some row) ids rows ∧ out = start.setAll (ids.zip rows) := by
  induction ids generalizing start with
  | nil => obtain ⟨rfl, rfl⟩ := h; exact ⟨rfl, [], .nil, rfl⟩
  | cons id ids ih =>
    obtain ⟨row, mid, hsend, h⟩ := Engine.yields_bind.1 h
    obtain ⟨n, new, hx, rfl⟩ := Engine.yields_send.1 hsend
    obtain ⟨u, hu, rfl, rfl⟩ := (exec_lockBalance (n := n)).1 hx
    rw [List.append_nil] at h
    cases hg : (postgres.view db ws).balances.get? u with
    | none => rw [hg] at h; exact h.elim
    | some row =>
      rw [hg] at h
      obtain ⟨rfl, rows, hrows, rfl⟩ := ih h
      exact ⟨rfl, row :: rows, .cons ⟨u, hu, hg⟩ hrows, rfl⟩

theorem lockOrder_nodup (ids : List AccountId) : (lockOrder ids).Nodup :=
  (List.perm_insertionSort _ _).nodup_iff.2 (List.nodup_dedup _)

theorem mem_lockOrder {ids : List AccountId} {k : String} : k ∈ lockOrder ids ↔ ∃ id ∈ ids, id.value = k := by
  rw [lockOrder, (List.perm_insertionSort _ _).mem_iff, List.mem_dedup, List.mem_map]

/-- The locked map has the row of each id, under the text it was asked with. -/
theorem lockForUpdate_yields {ids : List AccountId} {out : Keyed String BalanceRow}
    (h : postgres.Yields db (lockForUpdate ids) ws out ws') :
    ws' = ws ∧ (∀ id ∈ ids, ∃ u row, Uuid.parse? id.value = some u ∧
      (postgres.view db ws).balances.get? u = some row ∧ out.get? id.value = some row) ∧
      ∀ k row, out.get? k = some row → ∃ id ∈ ids, id.value = k := by
  obtain ⟨rfl, rows, hrows, rfl⟩ := lockEach_yields h
  have hfst : ((lockOrder ids).zip rows).map Prod.fst = lockOrder ids := List.map_fst_zip hrows.length_eq.le
  have hget : ∀ k, (Keyed.empty.setAll ((lockOrder ids).zip rows)).get? k = Keyed.latest k ((lockOrder ids).zip rows) := by
    intro k
    rw [Keyed.get?_setAll, Keyed.get?_empty, Option.or_none]
  refine ⟨rfl, fun id hid => ?_, fun k row hk => ?_⟩
  · obtain ⟨i, hi, hik⟩ := List.mem_iff_getElem.1 (mem_lockOrder.2 ⟨id, hid, rfl⟩)
    have hi' : i < rows.length := hrows.length_eq ▸ hi
    obtain ⟨u, hu, hrow⟩ := List.forall₂_iff_get.1 hrows |>.2 i hi hi'
    have hmem : (id.value, rows[i]) ∈ (lockOrder ids).zip rows := by
      rw [← hik, ← List.getElem_zip (h := by simp [hi, hi'])]
      exact List.getElem_mem _
    refine ⟨u, rows[i], hik ▸ hu, hrow, ?_⟩
    rw [hget]
    exact Keyed.latest_of_mem (by rw [hfst]; exact lockOrder_nodup ids) hmem
  · rw [hget] at hk
    have := List.mem_map_of_mem (f := Prod.fst) (Keyed.mem_of_latest hk)
    rw [hfst] at this
    exact mem_lockOrder.1 this

end AccountBalancesRepository

/-- The row holds the values it was inserted with. -/
def Stored (v : PostingValues) (row : PostingRow) : Prop :=
  Uuid.parse? v.transactionId = some row.transactionId ∧ Uuid.parse? v.accountId = some row.accountId ∧
    row.amount = v.amount ∧ row.balanceAfter = v.balanceAfter ∧ row.prevHash = v.prevHash ∧ row.hash = v.hash

namespace JournalTransactionsRepository

theorem insertEach_yields {values : List PostingValues} {u : Unit}
    (h : postgres.Yields db (insertEach values) ws u ws') :
    ∃ rows, List.Forall₂ Stored values rows ∧ ws' = ws ++ rows.map .posting := by
  induction values generalizing ws with
  | nil => obtain ⟨-, rfl⟩ := h; exact ⟨[], .nil, by simp⟩
  | cons v values ih =>
    obtain ⟨_, mid, hsend, h⟩ := Engine.yields_bind.1 h
    obtain ⟨n, new, hx, rfl⟩ := Engine.yields_send.1 hsend
    obtain ⟨tid, htid, aid, haid, -, -, -, -, rfl⟩ := exec_insertPosting.1 hx
    obtain ⟨rows, hrows, rfl⟩ := ih h
    exact ⟨⟨n, tid, aid, v.amount, v.balanceAfter, v.prevHash, v.hash⟩ :: rows,
      .cons ⟨htid, haid, rfl, rfl, rfl, rfl⟩ hrows, by simp⟩

theorem insertPostings_yields {values : List PostingValues} {u : Unit}
    (h : postgres.Yields db (insertPostings values) ws u ws') :
    6 * values.length ≤ 65535 ∧ ∃ rows, List.Forall₂ Stored values rows ∧ ws' = ws ++ rows.map .posting := by
  obtain ⟨_, _, ybind, yinsert⟩ := Engine.yields_bind.1 h
  obtain ⟨hbind, rfl⟩ := Engine.yields_ofExcept.1 ybind
  exact ⟨(bindPostings_ok.1 hbind).1, insertEach_yields yinsert⟩

theorem append_yields {journal : JournalTransaction} {lines : List PostingLine} {reverses : Option String} {u : Unit}
    (h : postgres.Yields db (append journal lines reverses) ws u ws') :
    6 * journal.postings.length ≤ 65535 ∧ ∃ id, Uuid.parse? journal.id = some id ∧ ∃ target, Cast reverses target ∧
      ∃ code, journal.currency.code = some code ∧ (postgres.view db ws).journals.get? id = none ∧
      (∀ r ∈ target, (postgres.view db ws).reversalOf r = none) ∧
      (∀ r ∈ target, r = id ∨ ((postgres.view db ws).journals.get? r).isSome) ∧
      ∃ rows, List.Forall₂ Stored (toPostingRows journal lines) rows ∧
        ws' = ws ++ (.journal id ⟨code, target⟩ :: rows.map .posting) := by
  rw [append] at h
  split at h
  · exact h.elim
  · rename_i hlines
    obtain ⟨_, mid, hsend, h⟩ := Engine.yields_bind.1 h
    obtain ⟨n, new, hx, rfl⟩ := Engine.yields_send.1 hsend
    obtain ⟨id, hid, target, htarget, code, hcode, hfresh, hun, hfk, rfl⟩ := (exec_insertJournal (n := n)).1 hx
    obtain ⟨hparams, rows, hrows, rfl⟩ := insertPostings_yields h
    rw [toPostingRows, List.length_zipWith, not_not.1 hlines, min_self] at hparams
    exact ⟨hparams, id, hid, target, htarget, code, hcode, hfresh, hun, hfk, rows, hrows, by simp⟩

/-- What `hasReversal` reads. -/
theorem hasReversal_read {transactionId : String} {b : Bool}
    (h : postgres.read t (hasReversal transactionId) = .ok b) :
    ∃ u, Uuid.parse? transactionId = some u ∧ b = (t.reversalOf u).isSome := by
  simp only [hasReversal, Prog.ask, Prog.monad_bind, Prog.monad_pure, Prog.query_bind, Prog.pure_bind,
    Engine.read] at h
  split at h
  · rename_i row hrow
    simp only [Query.answer, except_bind_ok, castUuid_ok, except_pure_ok] at hrow
    obtain ⟨u, hu, rfl⟩ := hrow
    cases h
    exact ⟨u, hu, rfl⟩
  · cases h

end JournalTransactionsRepository

/-- The row an update leaves, and the entry of the running map it was sent for. -/
def Updated (e : String × BalanceRow) (w : Uuid × BalanceRow) : Prop := Uuid.parse? e.1 = some w.1 ∧ w.2 = e.2

namespace LedgerPoster

theorem updateBalances_yields {entries : List (String × BalanceRow)} {u : Unit}
    (hrow : ∀ e ∈ entries, ∃ id row, Uuid.parse? e.1 = some id ∧ (postgres.view db ws).balances.get? id = some row)
    (h : postgres.Yields db (updateBalances entries) ws u ws') :
    ∃ balances, List.Forall₂ Updated entries balances ∧ ws' = ws ++ balances.map fun w => .balance w.1 w.2 := by
  induction entries generalizing ws with
  | nil => obtain ⟨-, rfl⟩ := h; exact ⟨[], .nil, by simp⟩
  | cons e entries ih =>
    obtain ⟨key, state⟩ := e
    obtain ⟨_, mid, hsend, h⟩ := Engine.yields_bind.1 h
    obtain ⟨n, new, hx, rfl⟩ := Engine.yields_send.1 hsend
    obtain ⟨id, hid, -, rfl⟩ := (exec_updateBalance (n := n)).1 hx
    rw [List.forall_mem_cons] at hrow
    obtain ⟨id', row, hid', hg⟩ := hrow.1
    obtain rfl : id' = id := Option.some.inj (hid'.symm.trans hid)
    rw [hg] at h
    simp only [Option.isSome_some, if_true] at h
    obtain ⟨balances, hb, rfl⟩ := ih (fun e he => by
      obtain ⟨id, row, hid, hg⟩ := hrow.2 e he
      rw [view_append, view_balances _ [_]]
      by_cases heq : id = id'
      · exact ⟨id, _, hid, by rw [heq]; exact Keyed.get?_set_self ..⟩
      · exact ⟨id, row, hid, (Keyed.get?_set_of_ne _ _ heq).trans hg⟩) h
    exact ⟨(id', state) :: balances, .cons ⟨hid, rfl⟩ hb, by simp⟩

theorem findAccounts_yields {ids : List AccountId} {accounts : List (Option Account)}
    (h : postgres.Yields db (findAccounts ids) ws accounts ws') :
    ws' = ws ∧ List.Forall₂ (fun id o => postgres.read (postgres.view db ws) (AccountsRepository.findById id) = .ok o)
      ids accounts := by
  induction ids generalizing accounts with
  | nil => obtain ⟨rfl, rfl⟩ := h; exact ⟨rfl, .nil⟩
  | cons id ids ih =>
    obtain ⟨o, mid, hfind, hnext⟩ := Engine.yields_bind.1 h
    obtain ⟨hread, rfl⟩ := Engine.yields_lift.1 hfind
    obtain ⟨os, mid', hrest, rfl, rfl⟩ := Engine.yields_bind.1 hnext
    obtain ⟨rfl, hos⟩ := ih hrest
    exact ⟨rfl, .cons hread hos⟩

end LedgerPoster

/-! ## One call of `post` -/

/-- What a call of `post` computed, and the rows it wrote. -/
structure Booking where
  id : Uuid
  currency : String
  reverses : Option Uuid
  floors : Keyed String (Option Int)
  locked : Keyed String BalanceRow
  legs : LedgerPoster.Legs
  rows : List PostingRow
  balances : List (Uuid × BalanceRow)
  event : OutboxRow

def Booking.writes (b : Booking) : List Write :=
  (.journal b.id ⟨b.currency, b.reverses⟩ :: b.rows.map .posting) ++ b.balances.map (fun w => .balance w.1 w.2) ++
    [.outbox b.event]

section

variable (b : Booking)

theorem Booking.writes_account : b.writes.filterMap Write.account? = [] := by
  simp [writes, List.filterMap_cons, List.filterMap_map, Function.comp_def, Write.account?]

theorem Booking.writes_balance : b.writes.filterMap Write.balance? = b.balances := by
  simp [writes, List.filterMap_cons, List.filterMap_map, Function.comp_def, Write.balance?]

theorem Booking.writes_journal : b.writes.filterMap Write.journal? = [(b.id, ⟨b.currency, b.reverses⟩)] := by
  simp [writes, List.filterMap_cons, List.filterMap_map, Function.comp_def, Write.journal?]

theorem Booking.writes_posting : b.writes.filterMap Write.posting? = b.rows := by
  simp [writes, List.filterMap_cons, List.filterMap_map, Function.comp_def, Write.posting?]

theorem Booking.writes_key : b.writes.filterMap Write.key? = [] := by
  simp [writes, List.filterMap_cons, List.filterMap_map, Function.comp_def, Write.key?]

theorem Booking.writes_outbox : b.writes.filterMap Write.outbox? = [b.event] := by
  simp [writes, List.filterMap_cons, List.filterMap_map, Function.comp_def, Write.outbox?]

end

/-- The account row an id text names on `t`. -/
def Names (t : Tables) (text : String) (u : Uuid) (row : AccountRow) : Prop :=
  Uuid.parse? text = some u ∧ t.accounts.get? u = some row

/-- On the tables `t`, `post` returns having made the booking `b`. -/
structure Booking.Valid (sha256 : String → String) (t : Tables) (journal : JournalTransaction) (currency : Currency)
    (options : PostOptions) (b : Booking) : Prop where
  id : Uuid.parse? journal.id = some b.id
  /-- the parameters of the legs went into one `INSERT` -/
  parameters : 6 * journal.postings.length ≤ 65535
  code : journal.currency.code = some b.currency
  fresh : t.journals.get? b.id = none
  target : Cast options.reversesTransactionId b.reverses
  unreversed : ∀ r ∈ b.reverses, t.reversalOf r = none
  exists_target : ∀ r ∈ b.reverses, r = b.id ∨ (t.journals.get? r).isSome
  account : ∀ p ∈ journal.postings, ∃ u row c, Names t p.accountId.value u row ∧ Currency.of row.currency = .ok c ∧
    c.code = currency.code
  /-- the owner check found the rows whose id was sent as the database prints it -/
  owner : ∀ owner, options.requireOwner = some owner → ∀ p ∈ journal.postings, p.amount.isNegative →
    ∀ u row, Names t p.accountId.value u row → p.accountId.value = u.text →
      row.type = .system ∨ row.ownerId = some owner
  /-- and so do the floors -/
  floor : ∀ p ∈ journal.postings, ∀ u row, Names t p.accountId.value u row → p.accountId.value = u.text →
    b.floors.get? u.text = some row.overdraftFloor
  lock : ∀ p ∈ journal.postings, ∃ u row, Uuid.parse? p.accountId.value = some u ∧ t.balances.get? u = some row ∧
    b.locked.get? p.accountId.value = some row
  locked : ∀ k row, b.locked.get? k = some row → ∃ p ∈ journal.postings, p.accountId.value = k
  legs : LedgerPoster.postLegs sha256 currency b.floors journal.id journal.postings b.locked = .ok b.legs
  rows : List.Forall₂ Stored (JournalTransactionsRepository.toPostingRows journal b.legs.lines) b.rows
  balances : List.Forall₂ Updated b.legs.running.entries b.balances
  event : b.event = ⟨options.eventType, LedgerPoster.receipt journal currency b.legs.lines⟩

variable {sha256 : String → String} {journal : JournalTransaction} {currency : Currency} {options : PostOptions}

/-- The accounts `findAccounts` read, without the `some` the loop over them takes off. -/
def Found (t : Tables) (p : Posting) (a : Account) : Prop :=
  ∃ u row, Names t p.accountId.value u row ∧ AccountsRepository.toDomain u row = .ok a

theorem found_of_read {postings : List Posting} {as : List Account}
    (h : List.Forall₂ (fun id o => postgres.read t (AccountsRepository.findById id) = .ok o)
      (postings.map Posting.accountId) (as.map some)) : List.Forall₂ (Found t) postings as := by
  rw [List.forall₂_map_left_iff, List.forall₂_map_right_iff] at h
  refine h.imp fun p a hread => ?_
  obtain ⟨u, hu, ⟨-, hn⟩ | ⟨row, a', hg, hd, ha⟩⟩ := AccountsRepository.findById_read hread
  · cases hn
  · cases ha; exact ⟨u, row, ⟨hu, hg⟩, hd⟩

/-- One id text, one account. -/
theorem Found.unique {postings : List Posting} {as : List Account} (h : List.Forall₂ (Found t) postings as)
    {a b : Account} (ha : a ∈ as) (hb : b ∈ as) (hid : b.id.value = a.id.value) : b = a := by
  have named : ∀ a ∈ as, ∃ u row, t.accounts.get? u = some row ∧ AccountsRepository.toDomain u row = .ok a := by
    intro a ha
    obtain ⟨p, -, u, row, hn, hd⟩ := Forall₂.exists_left h ha
    exact ⟨u, row, hn.2, hd⟩
  obtain ⟨u, row, hg, hd⟩ := named a ha
  obtain ⟨u', row', hg', hd'⟩ := named b hb
  have hu : u' = u := Uuid.ext <|
    (AccountsRepository.toDomain_ok hd').1.symm.trans (hid.trans (AccountsRepository.toDomain_ok hd).1)
  subst hu
  cases hg.symm.trans hg'
  cases hd.symm.trans hd'
  rfl

/-- A map of the accounts found, keyed by the ids the database printed, has the account of
every leg under the text of its uuid. -/
theorem Found.mapped {postings : List Posting} {as : List Account} (h : List.Forall₂ (Found t) postings as)
    {p : Posting} (hp : p ∈ postings) {u : Uuid} {row : AccountRow} (hn : Names t p.accountId.value u row) :
    ∃ a, AccountsRepository.toDomain u row = .ok a ∧ ∀ {α : Type} (f : Account → α),
      (Keyed.empty.setAll (as.map fun a => (a.id.value, f a))).get? u.text = some (f a) := by
  obtain ⟨a, ha, u', row', hn', hd⟩ := Forall₂.exists_right h hp
  obtain rfl : u' = u := Option.some.inj (hn'.1.symm.trans hn.1)
  obtain rfl : row' = row := Option.some.inj (hn'.2.symm.trans hn.2)
  refine ⟨a, hd, fun f => ?_⟩
  rw [← (AccountsRepository.toDomain_ok hd).1, Keyed.get?_setAll,
    LedgerPoster.latest_account ha fun b hb => Found.unique h ha hb, Option.some_or]

theorem post_yields {r : TransferReceipt}
    (h : postgres.Yields db (LedgerPoster.post sha256 journal currency options) ws r ws') :
    ∃ b : Booking, b.Valid sha256 (postgres.view db ws) journal currency options ∧ r = b.event.payload ∧
      ws' = ws ++ b.writes := by
  simp only [LedgerPoster.post, Prog.monad_bind, Prog.monad_pure] at h
  obtain ⟨accounts, m, yfind, h₁⟩ := Engine.yields_bind.1 h
  obtain ⟨rfl, hread⟩ := LedgerPoster.findAccounts_yields yfind
  obtain ⟨involved, m, ycollect, h₂⟩ := Engine.yields_bind.1 h₁
  obtain ⟨hcollect, rfl⟩ := Engine.yields_ofExcept.1 ycollect
  obtain ⟨_, m, yowner, h₃⟩ := Engine.yields_bind.1 h₂
  obtain ⟨howner, rfl⟩ := Engine.yields_ofExcept.1 yowner
  obtain ⟨locked, m, ylock, h₄⟩ := Engine.yields_bind.1 h₃
  obtain ⟨rfl, hlock, hlocked⟩ := AccountBalancesRepository.lockForUpdate_yields ylock
  obtain ⟨legs, m, ylegs, h₅⟩ := Engine.yields_bind.1 h₄
  obtain ⟨hlegs, rfl⟩ := Engine.yields_ofExcept.1 ylegs
  obtain ⟨_, _, yappend, h₆⟩ := Engine.yields_bind.1 h₅
  obtain ⟨hparams, id, hid, target, htarget, code, hcode, hfresh, hun, hfk, rows, hrows, rfl⟩ :=
    JournalTransactionsRepository.append_yields yappend
  obtain ⟨as, rfl, has, hfloors, hbyId⟩ := LedgerPoster.collect_ok hcollect
  have found := found_of_read hread
  have mapped : ∀ p ∈ journal.postings, ∀ u row, Names (postgres.view db m) p.accountId.value u row →
      p.accountId.value = u.text → ∃ a, AccountsRepository.toDomain u row = .ok a ∧
        involved.byId.get? u.text = some a ∧ involved.floors.get? u.text = some row.overdraftFloor := by
    intro p hp u row hn hu
    obtain ⟨a, hd, hmap⟩ := Found.mapped found hp hn
    rw [hbyId, hfloors, ← (AccountsRepository.toDomain_ok hd).2.2.1]
    exact ⟨a, hd, hmap fun a => a, hmap Account.overdraftFloor⟩
  obtain ⟨_, _, yupdate, h₇⟩ := Engine.yields_bind.1 h₆
  -- the rows the updates find are the locked ones
  have hfound : ∀ e ∈ legs.running.entries, ∃ u row, Uuid.parse? e.1 = some u ∧
      (postgres.view db (m ++ (.journal id ⟨code, target⟩ :: rows.map .posting))).balances.get? u = some row := by
    intro e he
    have hk : e.1 ∈ locked.keys := by
      rw [← LedgerPoster.postLegs_keys hlegs]
      exact List.mem_map_of_mem he
    obtain ⟨row, hrow⟩ := Keyed.mem_keys_iff.1 hk
    obtain ⟨id', hid', hk'⟩ := hlocked _ _ hrow
    obtain ⟨u, row', hu, hg, -⟩ := hlock id' hid'
    refine ⟨u, row', hk' ▸ hu, ?_⟩
    have none : (rows.map Write.posting).filterMap Write.balance? = [] := by
      simp [List.filterMap_map, Function.comp_def, Write.balance?]
    rw [view_append, view_balances, List.filterMap_cons, none]
    exact hg
  obtain ⟨balances, hbalances, rfl⟩ := LedgerPoster.updateBalances_yields hfound yupdate
  obtain ⟨_, _, yevent, rfl, rfl⟩ := Engine.yields_bind.1 h₇
  obtain ⟨n, new, hx, rfl⟩ := Engine.yields_send.1 yevent
  obtain rfl := (exec_insertOutbox (n := n) (t := db)).1 hx
  refine ⟨⟨id, code, target, involved.floors, locked, legs, rows, balances, ⟨options.eventType, _⟩⟩, ?_, rfl,
    by rw [Booking.writes, ← List.append_assoc, ← List.append_assoc]; rfl⟩
  exact {
    id := hid
    parameters := hparams
    code := hcode
    fresh := hfresh
    target := htarget
    unreversed := hun
    exists_target := hfk
    account := fun p hp => by
      obtain ⟨a, ha, u, row, hn, hd⟩ := Forall₂.exists_right found hp
      exact ⟨u, row, a.currency, hn, (AccountsRepository.toDomain_ok hd).2.2.2.2, has a ha⟩
    owner := fun owner hreq p hp hneg u row hn hu => by
      obtain ⟨a, hd, hby, -⟩ := mapped p hp u row hn hu
      rw [LedgerPoster.requireOwner, hreq] at howner
      obtain ⟨-, htype, -, howns, -⟩ := AccountsRepository.toDomain_ok hd
      rw [← htype, ← howns]
      simpa [Account.isSystem, Account.isOwnedBy] using
        LedgerPoster.checkOwner_ok howner p hp hneg a (hu ▸ hby)
    floor := fun p hp u row hn hu => by
      obtain ⟨a, -, -, hfl⟩ := mapped p hp u row hn hu
      exact hfl
    lock := fun p hp => hlock _ (List.mem_map_of_mem hp)
    locked := fun k row hk => by
      obtain ⟨id, hid, rfl⟩ := hlocked k row hk
      obtain ⟨p, hp, rfl⟩ := List.mem_map.1 hid
      exact ⟨p, hp, rfl⟩
    legs := hlegs
    rows := hrows
    balances := hbalances
    event := rfl }

end MiniLedger
