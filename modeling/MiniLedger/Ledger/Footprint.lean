import MiniLedger.Ledger.Effects

/-!
# What a transaction holds covers what it writes

`Footprint` says that every row a transaction has written is one it holds, and that the
rows it has inserted are new to the committed tables. What another transaction then reads
of rows it holds itself, or of rows that were there already, is the same before and after
the commit.
-/

namespace MiniLedger

open Collections Sessions

/-- A transaction holding `held` may write `w`. -/
def Covered (held : List Resource) : Write → Prop
  | .account id _ => .account id ∈ held
  | .balance id _ => .balance id ∈ held
  | .journal id row => .journal id ∈ held ∧ ∀ r ∈ row.reversesTransactionId, .reverses r ∈ held
  | .posting row => .journal row.transactionId ∈ held ∧ .balance row.accountId ∈ held
  | .key key _ => .key key ∈ held
  | .outbox _ => True

/-- A transaction holding `held` has written `ws` over the committed tables `db`. -/
structure Footprint (db : Tables) (held : List Resource) (ws : List Write) : Prop where
  covered : ∀ w ∈ ws, Covered held w
  newAccount : ∀ u, .account u ∈ held → db.accounts.get? u = none
  newJournal : ∀ id, .journal id ∈ held → db.journals.get? id = none ∧ ∃ row, .journal id row ∈ ws
  newKey : ∀ k, .key k ∈ held → db.keys.get? k = none

variable {db : Tables} {held held' : List Resource} {ws ws' : List Write}

/-- What is covered stays covered when more is held. -/
theorem Covered.mono {w : Write} (h : Covered held w) (hsub : held ⊆ held') : Covered held' w := by
  cases w with
  | account => exact hsub h
  | balance => exact hsub h
  | journal => exact ⟨hsub h.1, fun r hr => hsub (h.2 r hr)⟩
  | posting => exact ⟨hsub h.1, hsub h.2⟩
  | key => exact hsub h
  | outbox => trivial

/-! ## The writes of one table -/

/-- The rows written to `accounts`. -/
theorem mem_accounts {u : Uuid} {row : AccountRow} : (u, row) ∈ ws.filterMap Write.account? ↔ .account u row ∈ ws := by
  rw [List.mem_filterMap]
  constructor
  · rintro ⟨w, hw, he⟩; cases w <;> cases he; exact hw
  · exact fun hw => ⟨_, hw, rfl⟩

theorem mem_balances {u : Uuid} {row : BalanceRow} : (u, row) ∈ ws.filterMap Write.balance? ↔ .balance u row ∈ ws := by
  rw [List.mem_filterMap]
  constructor
  · rintro ⟨w, hw, he⟩; cases w <;> cases he; exact hw
  · exact fun hw => ⟨_, hw, rfl⟩

theorem mem_journals {u : Uuid} {row : JournalRow} : (u, row) ∈ ws.filterMap Write.journal? ↔ .journal u row ∈ ws := by
  rw [List.mem_filterMap]
  constructor
  · rintro ⟨w, hw, he⟩; cases w <;> cases he; exact hw
  · exact fun hw => ⟨_, hw, rfl⟩

theorem mem_keys {k : String} {row : KeyRow} : (k, row) ∈ ws.filterMap Write.key? ↔ .key k row ∈ ws := by
  rw [List.mem_filterMap]
  constructor
  · rintro ⟨w, hw, he⟩; cases w <;> cases he; exact hw
  · exact fun hw => ⟨_, hw, rfl⟩

theorem mem_postings {row : PostingRow} : row ∈ ws.filterMap Write.posting? ↔ .posting row ∈ ws := by
  rw [List.mem_filterMap]
  constructor
  · rintro ⟨w, hw, he⟩; cases w <;> cases he; exact hw
  · exact fun hw => ⟨_, hw, rfl⟩

/-- The first of the journals `ws` inserts that reverses `id`. -/
def reversalIn (ws : List Write) (id : Uuid) : Option Uuid :=
  ((Keyed.empty.setAll (ws.filterMap Write.journal?)).entries.find? fun e => e.2.reversesTransactionId = some id).map
    Prod.fst

namespace Footprint

/-- A transaction that has just begun. -/
theorem nil (db : Tables) : Footprint db [] [] := by
  constructor <;> simp

/-- A statement adds to what is held and written. -/
theorem extend {locks : List Resource} {new : List Write} (h : Footprint db held ws)
    (hnew : ∀ w ∈ new, Covered (held ++ locks) w) (haccount : ∀ u, .account u ∈ locks → db.accounts.get? u = none)
    (hjournal : ∀ id, .journal id ∈ locks → db.journals.get? id = none ∧ ∃ row, .journal id row ∈ new)
    (hkey : ∀ k, .key k ∈ locks → db.keys.get? k = none) : Footprint db (held ++ locks) (ws ++ new) where
  covered w hw := by
    rcases List.mem_append.1 hw with hw | hw
    · exact (h.covered w hw).mono (List.subset_append_left ..)
    · exact hnew w hw
  newAccount u hu := (List.mem_append.1 hu).elim (h.newAccount u) (haccount u)
  newJournal id hid := by
    rcases List.mem_append.1 hid with hid | hid
    · obtain ⟨hnone, row, hrow⟩ := h.newJournal id hid
      exact ⟨hnone, row, List.mem_append_left _ hrow⟩
    · obtain ⟨hnone, row, hrow⟩ := hjournal id hid
      exact ⟨hnone, row, List.mem_append_right _ hrow⟩
  newKey k hk := (List.mem_append.1 hk).elim (h.newKey k) (hkey k)

/-! ## What a commit leaves as it is -/

section frame

variable (h : Footprint db held ws)
include h

/-- A row the transaction does not hold is the one that was there. -/
theorem account_eq {u : Uuid} (hu : .account u ∉ held) : (postgres.view db ws).accounts.get? u = db.accounts.get? u := by
  rw [view_accounts, Keyed.get?_setAll, Keyed.latest_eq_none_iff.2 fun v hv => hu (h.covered _ (mem_accounts.1 hv)), Option.none_or]

/-- A row that was there is not one the transaction inserts. -/
theorem account_some {u : Uuid} {row : AccountRow} (hu : db.accounts.get? u = some row) :
    (postgres.view db ws).accounts.get? u = some row :=
  (h.account_eq fun hm => by rw [h.newAccount u hm] at hu; cases hu).trans hu

theorem balance_eq {u : Uuid} (hu : .balance u ∉ held) : (postgres.view db ws).balances.get? u = db.balances.get? u := by
  rw [view_balances, Keyed.get?_setAll, Keyed.latest_eq_none_iff.2 fun v hv => hu (h.covered _ (mem_balances.1 hv)), Option.none_or]

theorem journal_eq {id : Uuid} (hid : .journal id ∉ held) :
    (postgres.view db ws).journals.get? id = db.journals.get? id := by
  rw [view_journals, Keyed.get?_setAll, Keyed.latest_eq_none_iff.2 fun v hv =>
    hid (h.covered _ (mem_journals.1 hv)).1, Option.none_or]

theorem journal_some {id : Uuid} {row : JournalRow} (hid : db.journals.get? id = some row) :
    (postgres.view db ws).journals.get? id = some row :=
  (h.journal_eq fun hm => by rw [(h.newJournal id hm).1] at hid; cases hid).trans hid

theorem key_eq {k : String} (hk : .key k ∉ held) : (postgres.view db ws).keys.get? k = db.keys.get? k := by
  rw [view_keys, Keyed.get?_setAll, Keyed.latest_eq_none_iff.2 fun v hv => hk (h.covered _ (mem_keys.1 hv)), Option.none_or]

theorem key_some {k : String} {row : KeyRow} (hk : db.keys.get? k = some row) :
    (postgres.view db ws).keys.get? k = some row :=
  (h.key_eq fun hm => by rw [h.newKey k hm] at hk; cases hk).trans hk

/-- A journal the transaction holds is one it has inserted. -/
theorem journal_held {id : Uuid} (hid : .journal id ∈ held) : ((postgres.view db ws).journals.get? id).isSome := by
  obtain ⟨row, hrow⟩ := (h.newJournal id hid).2
  rw [view_journals, Keyed.get?_setAll]
  cases hl : Keyed.latest id (ws.filterMap Write.journal?) with
  | some row' => rfl
  | none => exact absurd (mem_journals.2 hrow) (Keyed.latest_eq_none_iff.1 hl row)

/-- The journals the transaction has inserted come after the committed ones. -/
theorem journals_entries : (postgres.view db ws).journals.entries =
    db.journals.entries ++ (Keyed.empty.setAll (ws.filterMap Write.journal?)).entries := by
  rw [view_journals]
  refine Keyed.entries_setAll_of_new (List.append_nil _).symm fun e he hm => ?_
  exact Keyed.get?_eq_none_iff.1 (h.newJournal e.1 (h.covered _ (mem_journals.1 he)).1).1 hm

end frame

/-- The reversal of `id` is a committed one, or the transaction's own. -/
theorem view_reversalOf (h : Footprint db held ws) (id : Uuid) :
    (postgres.view db ws).reversalOf id = (db.reversalOf id).or (reversalIn ws id) := by
  rw [Tables.reversalOf, h.journals_entries, List.find?_append, Option.map_or]
  rfl

/-- A reversal is inserted under the entry of its target in the unique index. -/
theorem reversalIn_held (h : Footprint db held ws) {id : Uuid} (hid : (reversalIn ws id).isSome) :
    .reverses id ∈ held := by
  rw [reversalIn, Option.isSome_map] at hid
  obtain ⟨e, he⟩ := Option.isSome_iff_exists.1 hid
  have hrev : e.2.reversesTransactionId = some id := by simpa using List.find?_some he
  have hget := Keyed.get?_eq_some_iff.2 (List.mem_of_find?_eq_some he)
  rw [Keyed.get?_setAll, Keyed.get?_empty, Option.or_none] at hget
  exact (h.covered _ (mem_journals.1 (Keyed.mem_of_latest hget))).2 id hrev

theorem reversalIn_none (h : Footprint db held ws) {id : Uuid} (hid : .reverses id ∉ held) : reversalIn ws id = none := by
  cases hr : reversalIn ws id with
  | none => rfl
  | some r => exact absurd (h.reversalIn_held (by rw [hr]; rfl)) hid

theorem reversalOf_eq (h : Footprint db held ws) {id : Uuid} (hid : .reverses id ∉ held) :
    (postgres.view db ws).reversalOf id = db.reversalOf id := by
  rw [h.view_reversalOf, h.reversalIn_none hid, Option.or_none]

/-- A reversal once there stays. -/
theorem reversalOf_isSome (h : Footprint db held ws) {id : Uuid} (hid : (db.reversalOf id).isSome) :
    ((postgres.view db ws).reversalOf id).isSome := by
  rw [h.view_reversalOf, Option.isSome_or, hid, Bool.true_or]

/-! ## Another transaction commits -/

/-- What is new to the tables stays so when another transaction commits. -/
theorem commit (h : Footprint db held ws) (h' : Footprint db held' ws') (hd : held.Disjoint held') :
    Footprint (postgres.view db ws') held ws where
  covered := h.covered
  newAccount u hu := (h'.account_eq fun hm => hd hu hm).trans (h.newAccount u hu)
  newJournal id hid := ⟨(h'.journal_eq fun hm => hd hid hm).trans (h.newJournal id hid).1, (h.newJournal id hid).2⟩
  newKey k hk := (h'.key_eq fun hm => hd hk hm).trans (h.newKey k hk)

/-! ## What a transaction sees when another commits under it -/

section overlay

variable (h' : Footprint db held' ws')
include h'

/-- A row the other does not hold is seen as before its commit. -/
theorem over_account {u : Uuid} (hu : .account u ∉ held') :
    (postgres.view (postgres.view db ws') ws).accounts.get? u = (postgres.view db ws).accounts.get? u := by
  rw [view_accounts _ ws, view_accounts _ ws, Keyed.get?_setAll, Keyed.get?_setAll, h'.account_eq hu]

/-- A row seen before the commit is seen after it. -/
theorem over_account_some {u : Uuid} {row : AccountRow} (hu : (postgres.view db ws).accounts.get? u = some row) :
    (postgres.view (postgres.view db ws') ws).accounts.get? u = some row := by
  rw [view_accounts _ ws, Keyed.get?_setAll] at hu ⊢
  cases hl : Keyed.latest u (ws.filterMap Write.account?) with
  | some v => rw [hl] at hu; exact hu
  | none => rw [hl] at hu; exact h'.account_some hu

theorem over_balance {u : Uuid} (hu : .balance u ∉ held') :
    (postgres.view (postgres.view db ws') ws).balances.get? u = (postgres.view db ws).balances.get? u := by
  rw [view_balances _ ws, view_balances _ ws, Keyed.get?_setAll, Keyed.get?_setAll, h'.balance_eq hu]

theorem over_journal {id : Uuid} (hid : .journal id ∉ held') :
    (postgres.view (postgres.view db ws') ws).journals.get? id = (postgres.view db ws).journals.get? id := by
  rw [view_journals _ ws, view_journals _ ws, Keyed.get?_setAll, Keyed.get?_setAll, h'.journal_eq hid]

theorem over_journal_some {id : Uuid} (hid : ((postgres.view db ws).journals.get? id).isSome) :
    ((postgres.view (postgres.view db ws') ws).journals.get? id).isSome := by
  rw [view_journals _ ws, Keyed.get?_setAll] at hid ⊢
  cases hl : Keyed.latest id (ws.filterMap Write.journal?) with
  | some v => rfl
  | none =>
    rw [hl] at hid
    obtain ⟨row, hrow⟩ := Option.isSome_iff_exists.1 hid
    exact Option.isSome_iff_exists.2 ⟨row, h'.journal_some hrow⟩

theorem over_key {k : String} (hk : .key k ∉ held') :
    (postgres.view (postgres.view db ws') ws).keys.get? k = (postgres.view db ws).keys.get? k := by
  rw [view_keys _ ws, view_keys _ ws, Keyed.get?_setAll, Keyed.get?_setAll, h'.key_eq hk]

theorem over_key_some {k : String} {row : KeyRow} (hk : (postgres.view db ws).keys.get? k = some row) :
    (postgres.view (postgres.view db ws') ws).keys.get? k = some row := by
  rw [view_keys _ ws, Keyed.get?_setAll] at hk ⊢
  cases hl : Keyed.latest k (ws.filterMap Write.key?) with
  | some v => rw [hl] at hk; exact hk
  | none => rw [hl] at hk; exact h'.key_some hk

/-- No reversal appears under a target the other does not hold. -/
theorem over_reversalOf (h : Footprint db held ws) (hd : held.Disjoint held') {id : Uuid} (hid : .reverses id ∉ held') :
    (postgres.view (postgres.view db ws') ws).reversalOf id = (postgres.view db ws).reversalOf id := by
  rw [(h.commit h' hd).view_reversalOf, h.view_reversalOf, h'.reversalOf_eq hid]

end overlay

end Footprint

end MiniLedger
