import MiniLedger.Ledger.Schema

/-!
# What the statements do

One equivalence for each statement that goes through, and the tables a transaction sees as
the committed ones with its writes split by table. Every later fact about the store is
read off these.
-/

namespace MiniLedger

open Collections Sessions

/-! ## Results without an error -/

/-- A chain of checks goes through where each of them does. -/
theorem except_bind_ok {α β : Type} {x : Except Failure α} {f : α → Except Failure β} {b : β} :
    (x >>= f) = .ok b ↔ ∃ a, x = .ok a ∧ f a = .ok b := by
  cases x with
  | error e => simp [bind, Except.bind]
  | ok a => simp [bind, Except.bind]

theorem except_pure_ok {α : Type} {a b : α} : (pure a : Except Failure α) = .ok b ↔ b = a := by
  simp [pure, Except.pure, eq_comm]

theorem require_ok {p : Prop} [Decidable p] {code : String} {constraint : Option String} {u : Unit} :
    require p code constraint = .ok u ↔ p := by
  unfold require
  by_cases hp : p <;> simp [hp]

/-- A text can be bound unless it holds U+0000. -/
theorem bindText_ok {text : Option String} {u : Unit} : bindText text = .ok u ↔ ∀ s ∈ text, Storable s := require_ok

/-- A text of a uuid can be bound. -/
theorem storable_of_parse {text : String} {id : Uuid} (h : Uuid.parse? text = some id) : Storable text := by
  intro c hc hzero
  obtain rfl : c = Char.ofNat 0 := by rw [← hzero, Char.ofNat_toNat]
  rcases Uuid.parse?_chars h _ hc with h | h | h | h <;> revert h <;> decide

/-- A text is cast to the uuid it reads as. -/
theorem castUuid_ok {text : String} {id : Uuid} : castUuid text = .ok id ↔ Uuid.parse? text = some id := by
  simp only [castUuid, except_bind_ok, bindText_ok, exists_const, Option.mem_some_iff, forall_eq']
  cases hparse : Uuid.parse? text with
  | some u =>
    rw [and_iff_right (storable_of_parse hparse), Option.some.injEq, eq_comm (a := u)]
    exact except_pure_ok
  | none => simp

theorem notNull_ok {α : Type} {o : Option α} {a : α} : notNull o = .ok a ↔ o = some a := by
  cases o <;> simp [notNull]

theorem indexText_ok {entrySize : String → Nat} {index text : String} {u : Unit} :
    indexText entrySize index text = .ok u ↔ Indexed entrySize text := require_ok

theorem forM_indexText_ok {entrySize : String → Nat} {index : String} {text : Option String} {u : Unit} :
    text.forM (indexText entrySize index) = .ok u ↔ ∀ s ∈ text, Indexed entrySize s := by
  cases text with
  | none => simp [Option.forM, pure, Except.pure]
  | some s => simpa [Option.forM] using indexText_ok

/-- A row of postings whose parameters can be bound, to the uuids of the journal and the account. -/
theorem PostingValues.bind_ok {v : PostingValues} {ids : Uuid × Uuid} :
    v.bind = .ok ids ↔ Uuid.parse? v.transactionId = some ids.1 ∧ Uuid.parse? v.accountId = some ids.2 ∧
      Int8 v.amount ∧ Int8 v.balanceAfter := by
  obtain ⟨transactionId, accountId⟩ := ids
  simp only [PostingValues.bind, except_bind_ok, castUuid_ok, require_ok, except_pure_ok, Prod.mk.injEq, exists_const]
  constructor
  · rintro ⟨_, htid, _, haid, hint, rfl, rfl⟩; exact ⟨htid, haid, hint⟩
  · rintro ⟨htid, haid, hint⟩; exact ⟨_, htid, _, haid, hint, rfl, rfl⟩

theorem bindEach_ok {rows : List PostingValues} {u : Unit} :
    bindEach rows = .ok u ↔ ∀ v ∈ rows, ∃ ids, v.bind = .ok ids := by
  induction rows with
  | nil => simp [bindEach, pure, Except.pure]
  | cons v rows ih => rw [bindEach, except_bind_ok, List.forall_mem_cons, ← ih, exists_and_right]

/-- The INSERT of a journal's rows: six parameters each, within what one statement takes. -/
theorem bindPostings_ok {rows : List PostingValues} {u : Unit} :
    bindPostings rows = .ok u ↔ 6 * rows.length ≤ 65535 ∧ ∀ v ∈ rows, ∃ ids, v.bind = .ok ids := by
  simp only [bindPostings, except_bind_ok, require_ok, exists_const]
  refine and_congr_right fun _ => ?_
  exact bindEach_ok

/-- An optional id, cast where it is there. -/
def Cast (text : Option String) (id : Option Uuid) : Prop :=
  match text, id with
  | none, none => True
  | some text, some id => Uuid.parse? text = some id
  | _, _ => False

theorem mapM_castUuid_ok {text : Option String} {id : Option Uuid} : text.mapM castUuid = .ok id ↔ Cast text id := by
  cases text with
  | none => cases id <;> simp [Cast, pure, Except.pure]
  | some text =>
    rw [Option.mapM_some, Functor.map, Applicative.toFunctor, Monad.toApplicative, Except.instMonad]
    cases h : castUuid text with
    | error e => cases id <;> simp [Cast, Except.map, ← castUuid_ok, h]
    | ok u => cases id <;> simp [Cast, Except.map, ← castUuid_ok, h]

section exec

variable {n : Nat} {t : Tables} {new : List Write}

/-- `accounts`: a new id, a handle free in its currency, an owner its index takes. -/
theorem exec_insertAccount {v : AccountValues} {u : Unit} :
    Stmt.exec (.insertAccount v) n t = .ok (u, new) ↔ ∃ id, Uuid.parse? v.id = some id ∧
      (∀ floor ∈ v.overdraftFloor, Int8 floor) ∧ (∀ s ∈ v.handle, Storable s) ∧ (∀ s ∈ v.ownerId, Storable s) ∧
      ∃ currency, v.currency = some currency ∧ t.accounts.get? id = none ∧ ¬ t.handleTaken v.handle currency ∧
      (∀ s ∈ v.ownerId, Indexed t.entrySize s) ∧
      new = [.account id ⟨v.type, currency, v.overdraftFloor, v.handle, v.ownerId, v.createdAt⟩] := by
  simp only [Stmt.exec, except_bind_ok, castUuid_ok, notNull_ok, require_ok, bindText_ok, forM_indexText_ok,
    except_pure_ok, Prod.mk.injEq, true_and, exists_const]

/-- `account_balances`: one row for each account there is. -/
theorem exec_insertBalance {accountId : String} {u : Unit} :
    Stmt.exec (.insertBalance accountId) n t = .ok (u, new) ↔ ∃ id, Uuid.parse? accountId = some id ∧
      t.balances.get? id = none ∧ (t.accounts.get? id).isSome ∧ new = [.balance id ⟨0, none⟩] := by
  simp only [Stmt.exec, except_bind_ok, castUuid_ok, require_ok, except_pure_ok, Prod.mk.injEq, true_and,
    exists_const]

/-- `SELECT … FOR UPDATE` returns the row as it stands. -/
theorem exec_lockBalance {accountId : String} {row : Option BalanceRow} :
    Stmt.exec (.lockBalance accountId) n t = .ok (row, new) ↔
      ∃ id, Uuid.parse? accountId = some id ∧ row = t.balances.get? id ∧ new = [] := by
  simp only [Stmt.exec, except_bind_ok, castUuid_ok, except_pure_ok, Prod.mk.injEq]

/-- An `UPDATE` of a row that is not there writes nothing. -/
theorem exec_updateBalance {accountId : String} {balance : Int} {chainHash : Option String} {u : Unit} :
    Stmt.exec (.updateBalance accountId balance chainHash) n t = .ok (u, new) ↔
      ∃ id, Uuid.parse? accountId = some id ∧ Int8 balance ∧
      new = if (t.balances.get? id).isSome then [.balance id ⟨balance, chainHash⟩] else [] := by
  simp only [Stmt.exec, except_bind_ok, castUuid_ok, require_ok, except_pure_ok, Prod.mk.injEq, true_and,
    exists_const]

/-- `journal_transactions`: a new id, a target that exists and has no reversal yet. -/
theorem exec_insertJournal {v : JournalValues} {u : Unit} :
    Stmt.exec (.insertJournal v) n t = .ok (u, new) ↔ ∃ id, Uuid.parse? v.id = some id ∧
      ∃ reverses, Cast v.reversesTransactionId reverses ∧ ∃ currency, v.currency = some currency ∧
      t.journals.get? id = none ∧ (∀ r ∈ reverses, t.reversalOf r = none) ∧
      (∀ r ∈ reverses, r = id ∨ (t.journals.get? r).isSome) ∧ new = [.journal id ⟨currency, reverses⟩] := by
  simp only [Stmt.exec, except_bind_ok, castUuid_ok, mapM_castUuid_ok, notNull_ok, require_ok, except_pure_ok,
    Prod.mk.injEq, true_and, exists_const]

/-- `postings`: an amount other than zero, of a journal and an account that exist. -/
theorem exec_insertPosting {v : PostingValues} {u : Unit} :
    Stmt.exec (.insertPosting v) n t = .ok (u, new) ↔ ∃ transactionId, Uuid.parse? v.transactionId = some transactionId ∧
      ∃ accountId, Uuid.parse? v.accountId = some accountId ∧ (Int8 v.amount ∧ Int8 v.balanceAfter) ∧ v.amount ≠ 0 ∧
      (t.journals.get? transactionId).isSome ∧ (t.accounts.get? accountId).isSome ∧
      new = [.posting ⟨n, transactionId, accountId, v.amount, v.balanceAfter, v.prevHash, v.hash⟩] := by
  simp only [Stmt.exec, except_bind_ok, PostingValues.bind_ok, require_ok, except_pure_ok, Prod.mk.injEq, true_and,
    exists_const, Prod.exists]
  constructor
  · rintro ⟨_, _, ⟨htid, haid, hint⟩, h⟩; exact ⟨_, htid, _, haid, hint, h⟩
  · rintro ⟨_, htid, _, haid, hint, h⟩; exact ⟨_, _, ⟨htid, haid, hint⟩, h⟩

/-- `ON CONFLICT DO NOTHING`: a key that is there is left as it is. -/
theorem exec_insertKey {key fingerprint : String} {inserted : Bool} :
    Stmt.exec (.insertKey key fingerprint) n t = .ok (inserted, new) ↔ Storable key ∧
      if (t.keys.get? key).isSome then inserted = false ∧ new = []
      else Indexed t.entrySize key ∧ inserted = true ∧ new = [.key key ⟨fingerprint, none, none⟩] := by
  simp only [Stmt.exec, except_bind_ok, bindText_ok, exists_const, Option.mem_some_iff, forall_eq']
  refine and_congr_right fun _ => ?_
  cases t.keys.get? key with
  | none => simp only [except_bind_ok, except_pure_ok, indexText_ok, exists_const, Prod.mk.injEq]; simp
  | some row => simp only [except_pure_ok, Prod.mk.injEq]; simp

/-- An `UPDATE` of a key that is not there writes nothing; otherwise the journal has to exist. -/
theorem exec_completeKey {key transactionId : String} {response : TransferReceipt} {u : Unit} :
    Stmt.exec (.completeKey key transactionId response) n t = .ok (u, new) ↔
      ∃ id, Uuid.parse? transactionId = some id ∧ Storable key ∧
      ((t.keys.get? key = none ∧ new = []) ∨
        ∃ row, t.keys.get? key = some row ∧ (t.journals.get? id).isSome ∧
          new = [.key key ⟨row.fingerprint, some id, some response⟩]) := by
  simp only [Stmt.exec, except_bind_ok, castUuid_ok, bindText_ok, exists_const, Option.mem_some_iff, forall_eq']
  refine exists_congr fun id => and_congr_right fun _ => and_congr_right fun _ => ?_
  cases t.keys.get? key with
  | none => simp [except_pure_ok]
  | some row => simp only [except_bind_ok, require_ok, except_pure_ok, Prod.mk.injEq, true_and, exists_const]; simp

theorem exec_insertOutbox {type : String} {payload : TransferReceipt} {u : Unit} :
    Stmt.exec (.insertOutbox type payload) n t = .ok (u, new) ↔ new = [.outbox ⟨type, payload⟩] := by
  simp only [Stmt.exec, except_pure_ok, Prod.mk.injEq, true_and]

/-- A row that goes through took one value of the sequence. -/
theorem draws_insertPosting {v : PostingValues} {u : Unit} (h : Stmt.exec (.insertPosting v) n t = .ok (u, new)) :
    Stmt.draws (.insertPosting v) = 1 := by
  obtain ⟨tid, htid, aid, haid, hint, -⟩ := exec_insertPosting.1 h
  have hbind : v.bind = .ok (tid, aid) := PostingValues.bind_ok.2 ⟨htid, haid, hint⟩
  rw [Stmt.draws, hbind]
  rfl

end exec

/-! ## The tables a transaction sees -/

section view

variable (db : Tables) (ws : List Write)

@[simp] theorem view_nil : postgres.view db ([] : List Write) = db := rfl

@[simp] theorem view_append (new : List Write) :
    postgres.view db (ws ++ new) = postgres.view (postgres.view db ws) new := Engine.view_append postgres db ws new

/-- The rows of a table are set in the order they were written. -/
theorem view_accounts : (postgres.view db ws).accounts = db.accounts.setAll (ws.filterMap Write.account?) := by
  induction ws generalizing db with
  | nil => rfl
  | cons w ws ih => rw [Engine.view_cons, ih]; cases w <;> rfl

theorem view_balances : (postgres.view db ws).balances = db.balances.setAll (ws.filterMap Write.balance?) := by
  induction ws generalizing db with
  | nil => rfl
  | cons w ws ih => rw [Engine.view_cons, ih]; cases w <;> rfl

theorem view_journals : (postgres.view db ws).journals = db.journals.setAll (ws.filterMap Write.journal?) := by
  induction ws generalizing db with
  | nil => rfl
  | cons w ws ih => rw [Engine.view_cons, ih]; cases w <;> rfl

theorem view_keys : (postgres.view db ws).keys = db.keys.setAll (ws.filterMap Write.key?) := by
  induction ws generalizing db with
  | nil => rfl
  | cons w ws ih => rw [Engine.view_cons, ih]; cases w <;> rfl

/-- Postings are only ever added, in the order they were written. -/
theorem view_postings : (postgres.view db ws).postings = db.postings ++ ws.filterMap Write.posting? := by
  induction ws generalizing db with
  | nil => exact (List.append_nil _).symm
  | cons w ws ih =>
    rw [Engine.view_cons, ih, List.filterMap_cons]
    cases w <;> simp [Tables.apply, Write.posting?]

theorem view_outbox : (postgres.view db ws).outbox = db.outbox ++ ws.filterMap Write.outbox? := by
  induction ws generalizing db with
  | nil => exact (List.append_nil _).symm
  | cons w ws ih =>
    rw [Engine.view_cons, ih, List.filterMap_cons]
    cases w <;> simp [Tables.apply, Write.outbox?]

/-- What an index takes does not depend on what is stored. -/
@[simp] theorem view_entrySize : (postgres.view db ws).entrySize = db.entrySize := by
  induction ws generalizing db with
  | nil => rfl
  | cons w ws ih => rw [Engine.view_cons, ih]; cases w <;> rfl

end view

end MiniLedger
