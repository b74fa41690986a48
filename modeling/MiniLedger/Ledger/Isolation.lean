import MiniLedger.Ledger.Booked
import MiniLedger.Ledger.Footprint
import MiniLedger.Ledger.Runs
import MiniLedger.Sessions.Chronicle

/-!
# The requests run apart

The rules the transactions of the ledger keep, and the discipline they amount to: a
transaction locks what it will write, and of what it reads without a lock only an answer of
absence can go stale: no account, no balance row, no key, no reversal yet. On the first
three the code gives up at once; on the last the unique index refuses the journal.
-/

namespace MiniLedger

open Collections Sessions

variable {db : Tables} {held held' : List Resource} {ws ws' : List Write}

/-! ## The rules -/

/-- What a transaction reads. -/
def mayAsk : Query → Prop
  | .account _ => True
  | .reversalOf _ => True
  | .key _ => True
  | _ => False

/-- A posting is inserted for a journal of the transaction and a balance row it has locked,
a key is completed by the transaction that claimed it. -/
def maySend (held : List Resource) : Stmt → Prop
  | .insertAccount v => v.handle = none
  | .insertPosting v => (∀ id, Uuid.parse? v.transactionId = some id → .journal id ∈ held) ∧
      ∀ u, Uuid.parse? v.accountId = some u → .balance u ∈ held
  | .completeKey key _ _ => .key key ∈ held
  | _ => True

theorem uuidOf_of_parse {text : String} {u : Uuid} (h : Uuid.parse? text = some u) : uuidOf text = [u] := by
  rw [uuidOf, h]; rfl

theorem uuidOf_of_cast {text : Option String} {id : Option Uuid} (h : Cast text id) :
    text.toList.flatMap uuidOf = id.toList := by
  cases text with
  | none => cases id with
    | none => rfl
    | some u => exact h.elim
  | some text => cases id with
    | none => exact h.elim
    | some u => simpa using uuidOf_of_parse h

theorem accounts_none_of_view {u : Uuid} (h : (postgres.view db ws).accounts.get? u = none) :
    db.accounts.get? u = none := by
  rw [view_accounts, Keyed.get?_setAll, Option.or_eq_none_iff] at h
  exact h.2

theorem journals_none_of_view {id : Uuid} (h : (postgres.view db ws).journals.get? id = none) :
    db.journals.get? id = none := by
  rw [view_journals, Keyed.get?_setAll, Option.or_eq_none_iff] at h
  exact h.2

theorem keys_none_of_view {k : String} (h : (postgres.view db ws).keys.get? k = none) : db.keys.get? k = none := by
  rw [view_keys, Keyed.get?_setAll, Option.or_eq_none_iff] at h
  exact h.2

/-- A statement within the rules writes only what the transaction then holds. -/
theorem Footprint.step {s : Stmt} {n : Nat} {ans : s.Ans} {new : List Write} (hs : maySend held s)
    (h : Footprint db held ws) (hx : Stmt.exec s n (postgres.view db ws) = .ok (ans, new)) :
    Footprint db (held ++ Stmt.locks s ans) (ws ++ new) := by
  cases s with
  | insertAccount v =>
    obtain ⟨id, hid, -, -, -, code, -, hnone, -, -, rfl⟩ := exec_insertAccount.1 hx
    simp only [Stmt.locks, uuidOf_of_parse hid, List.map_cons, List.map_nil]
    refine h.extend ?_ ?_ ?_ ?_ <;> simp [Covered]
    exact accounts_none_of_view hnone
  | insertBalance a =>
    obtain ⟨id, hid, -, -, rfl⟩ := exec_insertBalance.1 hx
    simp only [Stmt.locks, uuidOf_of_parse hid, List.map_cons, List.map_nil]
    refine h.extend ?_ ?_ ?_ ?_ <;> simp [Covered]
  | lockBalance a =>
    obtain ⟨id, hid, -, rfl⟩ := (exec_lockBalance (n := n)).1 hx
    refine h.extend ?_ ?_ ?_ ?_ <;> cases ans <;> simp [Stmt.locks]
  | updateBalance a x c =>
    obtain ⟨id, hid, -, rfl⟩ := (exec_updateBalance (n := n)).1 hx
    simp only [Stmt.locks, uuidOf_of_parse hid, List.map_cons, List.map_nil]
    refine h.extend (fun w hw => ?_) (by simp) (by simp) (by simp)
    split at hw
    · rw [List.mem_singleton.1 hw]; exact List.mem_append_right _ (List.mem_singleton_self _)
    · cases hw
  | insertJournal v =>
    obtain ⟨id, hid, target, htarget, code, -, hnone, -, -, rfl⟩ := (exec_insertJournal (n := n)).1 hx
    simp only [Stmt.locks, uuidOf_of_parse hid, uuidOf_of_cast htarget, List.map_cons, List.map_nil]
    refine h.extend ?_ ?_ ?_ ?_ <;> simp [Covered]
    · exact fun r hr => .inr hr
    · exact journals_none_of_view hnone
  | insertPosting v =>
    obtain ⟨tid, htid, aid, haid, -, -, -, -, rfl⟩ := exec_insertPosting.1 hx
    refine h.extend ?_ ?_ ?_ ?_ <;> simp [Covered, Stmt.locks]
    exact ⟨hs.1 tid htid, hs.2 aid haid⟩
  | insertKey k f =>
    obtain ⟨-, hx⟩ := (exec_insertKey (n := n)).1 hx
    cases hk : (postgres.view db ws).keys.get? k with
    | some row =>
      rw [hk] at hx
      obtain ⟨rfl, rfl⟩ := hx
      refine h.extend ?_ ?_ ?_ ?_ <;> simp [Stmt.locks]
    | none =>
      rw [hk] at hx
      obtain ⟨-, rfl, rfl⟩ := hx
      refine h.extend ?_ ?_ ?_ ?_ <;> simp [Covered, Stmt.locks]
      exact keys_none_of_view hk
  | completeKey k i r =>
    have hnew := h.newKey k hs
    obtain ⟨_, -, -, ⟨-, rfl⟩ | ⟨_, -, -, rfl⟩⟩ := (exec_completeKey (n := n)).1 hx <;>
      (refine h.extend ?_ ?_ ?_ ?_ <;> simp [Covered, Stmt.locks, hnew])
  | insertOutbox ty p =>
    obtain rfl := (exec_insertOutbox (n := n) (t := db)).1 hx
    refine h.extend ?_ ?_ ?_ ?_ <;> simp [Covered, Stmt.locks]

/-! ## What goes stale -/

/-- The answers of absence another transaction may make untrue. -/
def Stale : Obs sql → Tables → Prop
  | .row (.account _) row, _ => row = none
  | .row (.key _) row, _ => row = none
  | .row (.reversalOf id) row, t => row = none ∧ ∃ u, Uuid.parse? id = some u ∧ (t.reversalOf u).isSome
  | .ans (.lockBalance _) row, _ => row = none
  | _, _ => False

/-- A second reversal of one transaction. -/
def Barred (t : Tables) : Stmt → Prop
  | .insertJournal v => ∃ text u, v.reversesTransactionId = some text ∧ Uuid.parse? text = some u ∧
      (t.reversalOf u).isSome
  | _ => False

theorem barred_fails {s : Stmt} {n : Nat} {r : s.Ans × List Write} (hb : Barred db s) (h : Footprint db held ws) :
    Stmt.exec s n (postgres.view db ws) ≠ .ok r := by
  cases s with
  | insertJournal v =>
    obtain ⟨text, u, hv, hu, hrev⟩ := hb
    obtain ⟨_, _⟩ := r
    intro hx
    obtain ⟨id, -, target, htarget, _, -, -, hnone, -⟩ := (exec_insertJournal (n := n)).1 hx
    rw [hv] at htarget
    cases target with
    | none => exact htarget
    | some u' =>
      obtain rfl : u = u' := Option.some.inj (hu.symm.trans htarget)
      have := h.reversalOf_isSome hrev
      rw [hnone u rfl] at this
      cases this
  | _ => exact hb.elim

theorem stable_row {q : Query} {row : q.Row} (hq : mayAsk q) (h : Footprint db held ws) (h' : Footprint db held' ws')
    (hd : held.Disjoint held') (ha : Query.answer q (postgres.view db ws) = .ok row) :
    Query.answer q (postgres.view (postgres.view db ws') ws) = .ok row ∨ Stale (.row q row) (postgres.view db ws') := by
  cases q with
  | account id =>
    simp only [Query.answer, except_bind_ok, castUuid_ok, except_pure_ok] at ha ⊢
    obtain ⟨u, hu, rfl⟩ := ha
    cases hg : (postgres.view db ws).accounts.get? u with
    | none => exact .inr rfl
    | some row => exact .inl ⟨u, hu, by rw [h'.over_account_some hg]⟩
  | key k =>
    simp only [Query.answer, except_bind_ok, except_pure_ok] at ha ⊢
    obtain ⟨_, hbind, rfl⟩ := ha
    cases hg : (postgres.view db ws).keys.get? k with
    | none => exact .inr rfl
    | some row => exact .inl ⟨_, hbind, by rw [h'.over_key_some hg]⟩
  | reversalOf id =>
    simp only [Query.answer, except_bind_ok, castUuid_ok, except_pure_ok] at ha ⊢
    obtain ⟨u, hu, rfl⟩ := ha
    cases hr : reversalIn ws' u with
    | none =>
      refine .inl ⟨u, hu, ?_⟩
      rw [(h.commit h' hd).view_reversalOf, h.view_reversalOf, h'.view_reversalOf, hr, Option.or_none]
    | some r =>
      have hheld := h'.reversalIn_held (by rw [hr]; rfl)
      have hnone := h.reversalIn_none fun hm => hd hm hheld
      cases hg : db.reversalOf u with
      | some r' =>
        refine .inl ⟨u, hu, ?_⟩
        rw [(h.commit h' hd).view_reversalOf, h.view_reversalOf, h'.view_reversalOf, hg]
        rfl
      | none =>
        refine .inr ⟨?_, u, hu, ?_⟩
        · rw [h.view_reversalOf, hg, hnone]; rfl
        · rw [h'.view_reversalOf, hr, hg]; rfl
  | balance | journal | postingsOf | postingsFor | statement => exact hq.elim

theorem stable_ans {s : Stmt} {n : Nat} {ans : s.Ans} {new : List Write} (hs : maySend held s)
    (h : Footprint db held ws) (h' : Footprint db held' ws') (hdis : (held ++ Stmt.locks s ans).Disjoint held')
    (hx : Stmt.exec s n (postgres.view db ws) = .ok (ans, new)) :
    Stmt.exec s n (postgres.view (postgres.view db ws') ws) = .ok (ans, new) ∨ Stale (.ans s ans) (postgres.view db ws') := by
  obtain ⟨hd, hlocks⟩ := List.disjoint_append_left.1 hdis
  cases s with
  | insertAccount v =>
    obtain ⟨id, hid, hfloor, hstore, howner, code, hcode, hnone, -, hindex, hnew⟩ := exec_insertAccount.1 hx
    have hfree : .account id ∉ held' := hlocks (by simp [Stmt.locks, uuidOf_of_parse hid])
    refine .inl (exec_insertAccount.2 ⟨id, hid, hfloor, hstore, howner, code, hcode, (h'.over_account hfree).trans hnone,
      ?_, fun s hs => ?_, hnew⟩)
    · have hhandle : v.handle = none := hs
      simp [Tables.handleTaken, hhandle]
    · rw [view_entrySize, view_entrySize, ← view_entrySize db ws]
      exact hindex s hs
  | insertBalance a =>
    obtain ⟨id, hid, hnone, hacc, hnew⟩ := exec_insertBalance.1 hx
    have hfree : .balance id ∉ held' := hlocks (by simp [Stmt.locks, uuidOf_of_parse hid])
    obtain ⟨row, hrow⟩ := Option.isSome_iff_exists.1 hacc
    exact .inl (exec_insertBalance.2 ⟨id, hid, (h'.over_balance hfree).trans hnone,
      by rw [h'.over_account_some hrow]; rfl, hnew⟩)
  | lockBalance a =>
    obtain ⟨id, hid, hrow, hnew⟩ := (exec_lockBalance (n := n)).1 hx
    cases ans with
    | none => exact .inr rfl
    | some row =>
      have hfree : .balance id ∉ held' := hlocks (by simp [Stmt.locks, uuidOf_of_parse hid])
      exact .inl (exec_lockBalance.2 ⟨id, hid, hrow.trans (h'.over_balance hfree).symm, hnew⟩)
  | updateBalance a x c =>
    obtain ⟨id, hid, hrange, hnew⟩ := (exec_updateBalance (n := n)).1 hx
    have hfree : .balance id ∉ held' := hlocks (by simp [Stmt.locks, uuidOf_of_parse hid])
    exact .inl (exec_updateBalance.2 ⟨id, hid, hrange, by rw [h'.over_balance hfree]; exact hnew⟩)
  | insertJournal v =>
    obtain ⟨id, hid, target, htarget, code, hcode, hnone, hun, hfk, hnew⟩ := (exec_insertJournal (n := n)).1 hx
    have hlocked : Stmt.locks (.insertJournal v) ans = .journal id :: target.toList.map .reverses := by
      simp [Stmt.locks, uuidOf_of_parse hid, uuidOf_of_cast htarget]
    rw [hlocked] at hlocks
    have hfree : .journal id ∉ held' := hlocks (List.mem_cons_self ..)
    refine .inl (exec_insertJournal.2 ⟨id, hid, target, htarget, code, hcode, (h'.over_journal hfree).trans hnone,
      fun r hr => ?_, fun r hr => (hfk r hr).imp_right h'.over_journal_some, hnew⟩)
    have hfree' : .reverses r ∉ held' :=
      hlocks (List.mem_cons_of_mem _ (List.mem_map_of_mem (Option.mem_toList.2 hr)))
    exact (h'.over_reversalOf h hd hfree').trans (hun r hr)
  | insertPosting v =>
    obtain ⟨tid, htid, aid, haid, hrange, hne, hjournal, hacc, hnew⟩ := exec_insertPosting.1 hx
    obtain ⟨row, hrow⟩ := Option.isSome_iff_exists.1 hacc
    exact .inl (exec_insertPosting.2 ⟨tid, htid, aid, haid, hrange, hne, h'.over_journal_some hjournal,
      by rw [h'.over_account_some hrow]; rfl, hnew⟩)
  | insertKey k f =>
    obtain ⟨hstore, hx⟩ := (exec_insertKey (n := n)).1 hx
    refine .inl (exec_insertKey.2 ⟨hstore, ?_⟩)
    cases hk : (postgres.view db ws).keys.get? k with
    | some row => rw [hk] at hx; rw [h'.over_key_some hk]; exact hx
    | none =>
      rw [hk] at hx
      obtain ⟨hindex, rfl, hnew⟩ := hx
      have hfree : .key k ∉ held' := hlocks (by simp [Stmt.locks])
      rw [h'.over_key hfree, hk]
      rw [view_entrySize] at hindex
      exact ⟨by rw [view_entrySize, view_entrySize]; exact hindex, rfl, hnew⟩
  | completeKey k i r =>
    have hfree : .key k ∉ held' := hlocks (by simp [Stmt.locks])
    obtain ⟨id, hid, hstore, hrest⟩ := (exec_completeKey (n := n)).1 hx
    refine .inl (exec_completeKey.2 ⟨id, hid, hstore, ?_⟩)
    rw [h'.over_key hfree]
    refine hrest.imp_right ?_
    rintro ⟨row, hrow, hjournal, hnew⟩
    exact ⟨row, hrow, h'.over_journal_some hjournal, hnew⟩
  | insertOutbox ty p => exact .inl hx

/-- Every posting belongs to a journal. -/
def Sound (t : Tables) : Prop := ∀ p ∈ t.postings, (t.journals.get? p.transactionId).isSome

theorem Sound.commit (hs : Sound db) (h : Footprint db held ws) : Sound (postgres.view db ws) := by
  intro p hp
  rw [view_postings, List.mem_append] at hp
  rcases hp with hp | hp
  · obtain ⟨row, hrow⟩ := Option.isSome_iff_exists.1 (hs p hp)
    rw [h.journal_some hrow]
    rfl
  · exact h.journal_held (h.covered _ (mem_postings.1 hp)).1

theorem Sound.booked {db' : Tables} {sha256 : String → String} {journal : JournalTransaction} {currency : Currency}
    {options : PostOptions} {b : Booking} (h : Sound db) (hv : b.Valid sha256 db journal currency options)
    (hb : Booked db db' b) : Sound db' := by
  intro p hp
  rw [hb.postings, List.mem_append] at hp
  rw [hb.journals, Keyed.get?_set]
  split
  · rfl
  · rename_i hne
    rcases hp with hp | hp
    · exact h p hp
    · exact absurd (hv.row_leg hp).1 hne

theorem Sound.committed {sha256 : String → String} {request : Request} {r : Reply} (h : Sound db)
    (hc : Committed sha256 db request r ws) : Sound (postgres.view db ws) := by
  cases hc with
  | opened => exact h
  | replayed => exact h
  | transferred currency amount journal b hch hv => exact h.booked hv (booked_transfer ..)
  | reversed target original currency journal b _ _ _ _ hv => exact h.booked hv (booked_writes ..)

theorem Reachable.sound {sha256 : String → String} {P : Tables → Request → Prop} {w : postgres.World}
    (h : Reachable sha256 P w) : Sound w.db := by
  obtain ⟨ids, createdAt, entrySize, hs⟩ := h
  exact hs.invariant (fun p hp => by cases hp) fun _ h hc => Sound.committed h hc

/-- The discipline of the ledger. -/
def discipline : Discipline postgres where
  mayAsk := mayAsk
  maySend := maySend
  Sound := Sound
  Footprint := Footprint
  Stale := Stale
  Barred := Barred
  footprint_nil := Footprint.nil
  footprint_step hs h hx := h.step hs hx
  sound_commit hs h _ := hs.commit h
  stable_row := stable_row
  stable_ans := stable_ans
  footprint_commit h h' hd := h.commit h' hd
  barred_fails := barred_fails
  barred_commit {db s _ _} hb h := by
    cases s with
    | insertJournal v =>
      obtain ⟨text, u, hv, hu, hrev⟩ := hb
      exact ⟨text, u, hv, hu, h.reversalOf_isSome hrev⟩
    | _ => exact hb.elim

end MiniLedger
