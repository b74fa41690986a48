import MiniLedger.Bookkeeping.Lawful
import MiniLedger.Ledger.Booked
import MiniLedger.Ledger.BookRuns

/-!
# The laws of the book, under load

What the office does with a request is one of three things (`Office.Turn`): nothing, an
account opened, or one entry nothing is held against. Each keeps the book lawful, and an
entry is always one its request was allowed to ask for. The committed tables of every
interleaving inherit both.
-/

namespace MiniLedger

open Bookkeeping Collections Sessions

variable {sha256 : String → String} {w : postgres.World} {request : Request} {u : Uuid}

/-! ## One request -/

/-- The entries a request may ask for, and the party it asks for. -/
inductive Asks (b : LedgerBook) : Request → Option String → LedgerEntry → Prop where
  | transfer {input : TransferInput} {id source target : Uuid} {currency : Currency} {amount : Nat} :
      Uuid.parse? input.from_ = some source → Uuid.parse? input.to_ = some target →
      Currency.of input.currency = .ok currency → TransferService.parseAmount input.amount = some amount → 0 < amount →
      Asks b (.transfer input id) (some input.ownerId) (transferEntry id source target amount currency)
  | reverse {transactionId : String} {id target : Uuid} {e : LedgerEntry} :
      Uuid.parse? transactionId = some target → b.find target = some e → b.reversed target = false →
      Asks b (.reverse transactionId id) none (e.reverse id)

namespace Office

/-- What a request does to the book. -/
inductive Turn (o : Office) : Request → LedgerBook → Prop where
  | idle (request : Request) : Turn o request o.book
  | opened {input : OpenAccountInput} {id : Uuid} {now : Nat} {code : String} : o.book.chart id = none →
      Turn o (.open_ input id now) (o.book.open_ id (AccountRow.terms ⟨.user, code, some 0, none, some input.ownerId, now⟩))
  | entered {request : Request} {party : Option String} {e : LedgerEntry} : Asks o.book request party e →
      o.book.verdict Int8 party e = none → Turn o request (o.book.enter e)

variable {o : Office}

theorem post_turn {party : Option String} {eventType : String} {e : LedgerEntry} {receipt : TransferReceipt} {o' : Office}
    (h : o.post party eventType e = .ok (receipt, o')) : o.book.verdict Int8 party e = none ∧ o'.book = o.book.enter e := by
  unfold post at h
  split at h
  · cases h
  · rename_i hv
    cases h
    exact ⟨hv, rfl⟩

theorem open_turn (input : OpenAccountInput) (id : Uuid) (now : Nat) :
    o.Turn (.open_ input id now) (o.open_ input id now).2.book := by
  unfold open_
  split
  · exact .idle _
  · split
    · exact .idle _
    · rename_i code hchecked
      exact .opened (checkAccount_ok.1 hchecked).2.2.1

theorem charge_turn {input : TransferInput} {currency : Currency} {amount : Nat} (hof : Currency.of input.currency = .ok currency)
    (hamount : TransferService.parseAmount input.amount = some amount) (hpos : 0 < amount) (id : Uuid) :
    o.Turn (.transfer input id) (o.charge sha256 input currency amount id).2.book := by
  unfold charge
  split
  · rename_i source target hsource htarget
    split
    · exact .idle _
    · rename_i receipt o' hpost
      obtain ⟨hv, hbook⟩ := post_turn hpost
      show o.Turn _ o'.book
      rw [hbook]
      exact .entered (.transfer (castUuid_ok.1 hsource) (castUuid_ok.1 htarget) hof hamount hpos) hv
  · exact .idle _
  · exact .idle _

theorem transfer_turn (input : TransferInput) (id : Uuid) :
    o.Turn (.transfer input id) (o.transfer sha256 input id).2.book := by
  unfold transfer
  split
  · exact .idle _
  · rename_i currency hof
    split
    · exact .idle _
    · rename_i amount hamount
      split
      · exact .idle _
      · split
        · exact .idle _
        · split
          · exact .idle _
          · unfold replay
            split
            · exact .idle _
            · exact .idle _
          · rename_i hzero _ _ _
            exact charge_turn hof hamount (Nat.pos_of_ne_zero hzero) id

theorem reverse_turn (transactionId : String) (id : Uuid) :
    o.Turn (.reverse transactionId id) (o.reverse transactionId id).2.book := by
  unfold reverse
  split
  · exact .idle _
  · rename_i target htarget
    split
    · exact .idle _
    · rename_i e hfind
      split
      · exact .idle _
      · rename_i hreversed
        split
        · exact .idle _
        · rename_i receipt o' hpost
          obtain ⟨hv, hbook⟩ := post_turn hpost
          show o.Turn _ o'.book
          rw [hbook]
          exact .entered (.reverse (castUuid_ok.1 htarget) hfind (Bool.eq_false_iff.2 hreversed)) hv

variable (sha256) (o) in
theorem serve_turn (request : Request) : o.Turn request (o.serve sha256 request).2.book := by
  cases request with
  | open_ input id now => exact open_turn input id now
  | transfer input id => exact transfer_turn input id
  | reverse transactionId id => exact reverse_turn transactionId id

/-- What is asked for balances, and undoes what it says it does. -/
theorem Turn.lawful {b : LedgerBook} (h : o.Turn request b) (hlaw : o.book.Lawful) : b.Lawful := by
  cases h with
  | idle => exact hlaw
  | opened hnew =>
    refine hlaw.open_ hnew ?_
    rintro _ ⟨⟩
    exact Int.le_refl 0
  | entered hasks hv =>
    cases hasks with
    | transfer =>
      refine hlaw.enter hv ?_ nofun
      simp [transferEntry]
    | @reverse transactionId id target e _ hfind hreversed =>
      have hmem : e ∈ o.book.entries := List.mem_of_find?_eq_some hfind
      have hid : e.id = target := of_decide_eq_true (List.find?_some hfind :)
      refine hlaw.enter hv ?_ ?_
      · rw [Book.sum_reverse, hlaw.balanced e hmem, Int.neg_zero]
      · rintro _ ⟨⟩
        exact ⟨hid ▸ hreversed, e, hmem, rfl, rfl⟩

/-- Accounts and entries stay. -/
theorem Turn.grows {b : LedgerBook} (h : o.Turn request b) :
    (∀ u terms, o.book.chart u = some terms → b.chart u = some terms) ∧ o.book.entries <+: b.entries := by
  cases h with
  | idle => exact ⟨fun _ _ h => h, List.prefix_refl _⟩
  | entered => exact ⟨fun _ _ h => h, List.prefix_append ..⟩
  | @opened input id now code hnew =>
    refine ⟨fun u terms hterms => ?_, List.prefix_refl _⟩
    have hne : u ≠ id := by
      rintro rfl
      rw [hnew] at hterms
      cases hterms
    exact (Function.update_of_ne hne ..).trans hterms

end Office

/-! ## Runs -/

theorem lawful_migrated (ids : WorldIds) (createdAt : Nat) (entrySize : String → Nat) : (migrated ids createdAt entrySize).db.book.Lawful := by
  refine ⟨nofun, nofun, List.nodup_nil, fun u terms floor hterms hfloor => ?_, nofun, List.nodup_nil⟩
  obtain ⟨row, hrow, rfl⟩ := Option.map_eq_some_iff.1 hterms
  obtain ⟨currency, -, rfl, -⟩ := migrated_account hrow
  cases hfloor

theorem Reachable.lawful (h : Reachable sha256 proper w) : w.db.book.Lawful := by
  obtain ⟨ids, createdAt, entrySize, hs⟩ := h
  induction hs with
  | refl => exact lawful_migrated ids createdAt entrySize
  | step request hs hp ih =>
    have hfiled := Reachable.filed ⟨ids, createdAt, entrySize, hs⟩
    have hbook : (serve sha256 request _).2.db.book = _ := congrArg Office.book (hfiled.serve hp.1 hp.2).2
    rw [hbook]
    exact (Office.serve_turn sha256 _ request).lawful ih

section

variable {ι : Type} {requests : ι → Request} {db : Tables} {log : List (Commit postgres ι Reply)}

/-- What every turn keeps holds of the book after any log. -/
theorem chronicle_turns {motive : List (Commit postgres ι Reply) → LedgerBook → Prop} (hp : ∀ i, proper w.db (requests i))
    (hk : Kept sha256 w.db) (h : Chronicle postgres (fun i => (requests i).call sha256) w.db log db)
    (ho : Ordered db.postings) (start : motive [] w.db.book)
    (step : ∀ {log} {o : Office} {e : Commit postgres ι Reply} {b}, motive log o.book → o.Turn (requests e.session) b →
      motive (log ++ [e]) b) : motive log db.book := by
  induction h with
  | nil => exact start
  | @snoc log db e hlog hc ih =>
    have hview : (postgres.view db e.writes).postings = db.postings ++ e.writes.filterMap Write.posting? :=
      view_postings ..
    rw [hview] at ho
    have ho : Ordered db.postings := (List.pairwise_append.1 ho).1
    have hserve := ((chronicle_kept hp hk hlog).filed ho).commits (hp e.session) hc
    have hturn := Office.serve_turn sha256 db.office (requests e.session)
    rw [hserve] at hturn
    exact step (ih ho) hturn

variable [DecidableEq ι] [Fintype ι] {c : Config postgres ι Reply}

theorem reaches_turns {motive : List (Commit postgres ι Reply) → LedgerBook → Prop} (hw : Reachable sha256 proper w)
    (hp : ∀ i, proper w.db (requests i)) (h : Reaches (Config.start w fun i => (requests i).call sha256) c)
    (start : motive [] w.db.book)
    (step : ∀ {log} {o : Office} {e : Commit postgres ι Reply} {b}, motive log o.book → o.Turn (requests e.session) b →
      motive (log ++ [e]) b) : motive c.log c.db.book :=
  chronicle_turns hp hw.kept (h.chronicle (D := discipline) hw.sound fun _ => request_disciplined _)
    (reaches_inSequence hw h).ordered start step

theorem reaches_lawfulBook (hw : Reachable sha256 proper w) (hp : ∀ i, proper w.db (requests i))
    (h : Reaches (Config.start w fun i => (requests i).call sha256) c) : c.db.book.Lawful :=
  reaches_turns (motive := fun _ b => b.Lawful) hw hp h hw.lawful fun hlaw hturn => hturn.lawful hlaw

/-- Stored balances that are those of a lawful book keep to the floors and hold nothing in
all. -/
theorem Filed.stands {t : Tables} (hf : Filed sha256 t) (hlaw : t.book.Lawful) :
    (∀ u row, t.accounts.get? u = some row → ∃ s, t.balances.get? u = some s ∧ s.balance = t.book.balance u ∧
        ∀ floor, row.overdraftFloor = some floor → floor ≤ s.balance) ∧
      ∀ currency, total t currency = 0 := by
  constructor
  · intro u row hrow
    obtain ⟨-, s, hs⟩ := hf.recorded.account u row hrow
    have hbalance := hf.balance hrow hs
    refine ⟨s, hs, hbalance.symm, fun floor hfloor => ?_⟩
    rw [← hbalance]
    exact hlaw.floors u row.terms floor (congrArg (Option.map AccountRow.terms) hrow) hfloor
  · intro currency
    have hcharted : ∀ e ∈ t.book.entries, ∀ l ∈ e.legs, l.account ∈ t.balances.keys.toFinset := by
      intro e he l hl
      obtain ⟨terms, hterms, -⟩ := hlaw.charted e he l hl
      obtain ⟨row, hrow, -⟩ := Option.map_eq_some_iff.1 hterms
      obtain ⟨-, s, hs⟩ := hf.recorded.account _ row hrow
      exact List.mem_toFinset.2 (Keyed.mem_keys_iff.2 ⟨s, hs⟩)
    have hzero := hlaw.total hcharted (some currency)
    rw [Keyed.keys, List.sum_toFinset _ t.balances.nodup, List.map_map] at hzero
    rw [← hzero, total, Keyed.sum]
    refine congrArg List.sum (List.map_congr_left fun e he => ?_)
    have hs : t.balances.get? e.1 = some e.2 := Keyed.get?_eq_some_iff.2 he
    obtain ⟨row, hrow⟩ := Option.isSome_iff_exists.1 (hf.charted e.1 e.2 hs)
    have hbalance : t.book.balance e.1 = e.2.balance := hf.balance hrow hs
    show (if (t.accounts.get? e.1).map AccountRow.currency = some currency then e.2.balance else 0) =
      if ((t.accounts.get? e.1).map AccountRow.terms).map Terms.currency = some (some currency) then
        t.book.balance e.1 else 0
    rw [hbalance, hrow]
    simp [AccountRow.terms]

/-- **The books stay lawful.** In every state an interleaving reaches, the journals and
postings are a lawful book; each stored balance is the book's and is not below the floor of
its account; and the balances of a currency come to nothing. -/
theorem run_lawful (hw : Reachable sha256 proper w) (hp : ∀ i, proper w.db (requests i))
    (h : Reaches (Config.start w fun i => (requests i).call sha256) c) :
    c.db.book.Lawful ∧
      (∀ u row, c.db.accounts.get? u = some row → ∃ s, c.db.balances.get? u = some s ∧ s.balance = c.db.book.balance u ∧
        ∀ floor, row.overdraftFloor = some floor → floor ≤ s.balance) ∧
      ∀ currency, total c.db currency = 0 := by
  have hlaw := reaches_lawfulBook hw hp h
  exact ⟨hlaw, (reaches_office hw hp h).1.stands hlaw⟩

end

/-- Two deposits at once. -/
theorem run_lawful_deposits : ∃ c : Config postgres (Fin 2) Reply,
    (Config.start Sample.emptyAccounts fun i =>
      (Sample.twoDeposits i).call (Sample.digest Sample.twoDepositsDigests)).play Sample.overlapping = some c ∧
    c.db.book.Lawful ∧
      (∀ u row, c.db.accounts.get? u = some row → ∃ s, c.db.balances.get? u = some s ∧ s.balance = c.db.book.balance u ∧
        ∀ floor, row.overdraftFloor = some floor → floor ≤ s.balance) ∧
      ∀ currency, total c.db currency = 0 := by
  obtain ⟨c, hplay, -⟩ := Sample.overlapping_play
  exact ⟨c, hplay, run_lawful Sample.deposits_proper.1 Sample.deposits_proper.2 (Reaches.of_play (.refl _) hplay)⟩

/-! ## Authority -/

/-- The request was allowed to have the entry made. -/
inductive Entitled (b : LedgerBook) : Request → LedgerEntry → Prop where
  | transfer {input : TransferInput} {id source target : Uuid} {currency : Currency} {amount : Nat}
      {terms : Terms (Option String) String} : Uuid.parse? input.from_ = some source → Uuid.parse? input.to_ = some target →
      Currency.of input.currency = .ok currency → TransferService.parseAmount input.amount = some amount → 0 < amount →
      b.chart source = some terms → terms.draws input.ownerId = true →
      Entitled b (.transfer input id) (transferEntry id source target amount currency)
  | reverse {transactionId : String} {id : Uuid} {e : LedgerEntry} : Uuid.parse? transactionId = some e.id →
      e ∈ b.entries → Entitled b (.reverse transactionId id) (e.reverse id)

theorem Entitled.mono {b b' : LedgerBook} {e : LedgerEntry} (h : Entitled b request e)
    (hchart : ∀ u terms, b.chart u = some terms → b'.chart u = some terms) (hentries : b.entries <+: b'.entries) :
    Entitled b' request e := by
  cases h with
  | transfer hs ht hof hamount hpos hterms hdraws => exact .transfer hs ht hof hamount hpos (hchart _ _ hterms) hdraws
  | reverse hp hmem => exact .reverse hp (hentries.subset hmem)

/-- An entry nothing is held against is one its request was allowed to have made. -/
theorem Asks.entitled {b : LedgerBook} {party : Option String} {e : LedgerEntry} (h : Asks b request party e)
    (hv : b.verdict Int8 party e = none) : Entitled b request e := by
  cases h with
  | @transfer input id source target currency amount hs ht hof hamount hpos =>
    obtain ⟨hscreen, hbarred, -⟩ := Book.verdict_eq_none.1 hv
    obtain ⟨terms, hterms, -⟩ := Book.screen_eq_none.1 hscreen ⟨source, -amount⟩ List.mem_cons_self
    refine .transfer hs ht hof hamount hpos hterms ?_
    by_contra hdraws
    have hbarred' : b.barred (some input.ownerId) (transferEntry id source target amount currency).legs = true := by
      refine Book.barred_iff.2 ⟨_, rfl, ⟨source, -amount⟩, List.mem_cons_self, ?_, fun terms' hterms' => ?_⟩
      · show -(amount : Int) < 0
        omega
      · obtain rfl : terms = terms' := Option.some.inj (hterms.symm.trans hterms')
        exact Bool.eq_false_iff.2 hdraws
    rw [hbarred] at hbarred'
    cases hbarred'
  | @reverse transactionId id target e hp hfind _ =>
    have hid : e.id = target := of_decide_eq_true (List.find?_some hfind :)
    exact .reverse (hid ▸ hp) (List.mem_of_find?_eq_some hfind)

/-- Every entry was made by a commit entitled to it, each commit making one at most. -/
def Accounted {ι : Type} (requests : ι → Request) (start : LedgerBook) (log : List (Commit postgres ι Reply))
    (b : LedgerBook) : Prop :=
  ∃ made : List (Commit postgres ι Reply × LedgerEntry), (made.map Prod.fst).Sublist log ∧
    b.entries = start.entries ++ made.map Prod.snd ∧ ∀ m ∈ made, Entitled b (requests m.1.session) m.2

section

variable {ι : Type} {requests : ι → Request} {log : List (Commit postgres ι Reply)} {start b : LedgerBook}

theorem Accounted.turn {o : Office} {e : Commit postgres ι Reply} (h : Accounted requests start log o.book)
    (hturn : o.Turn (requests e.session) b) : Accounted requests start (log ++ [e]) b := by
  obtain ⟨made, hlog, hentries, hmade⟩ := h
  obtain ⟨hchart, hgrow⟩ := hturn.grows
  -- what was made before stays accounted for
  have kept : ∀ m ∈ made, Entitled b (requests m.1.session) m.2 := fun m hm => (hmade m hm).mono hchart hgrow
  have skip : b.entries = o.book.entries → Accounted requests start (log ++ [e]) b := fun heq =>
    ⟨made, hlog.trans (List.sublist_append_left ..), heq.trans hentries, kept⟩
  generalize hr : requests e.session = request at hturn
  cases hturn with
  | idle => exact skip rfl
  | opened => exact skip rfl
  | @entered _ party entry hasks hv =>
    refine ⟨made ++ [(e, entry)], ?_, ?_, fun m hm => ?_⟩
    · rw [List.map_append]
      exact hlog.append (List.Sublist.refl _)
    · rw [List.map_append, ← List.append_assoc, ← hentries]
      rfl
    · obtain hm | hm := List.mem_append.1 hm
      · exact kept m hm
      · obtain rfl := List.mem_singleton.1 hm
        exact hr ▸ (hasks.entitled hv).mono hchart hgrow

variable [DecidableEq ι] [Fintype ι] {c : Config postgres ι Reply}

/-- Whatever the interleaving, no entry is made without authority. -/
theorem reaches_accounted (hw : Reachable sha256 proper w) (hp : ∀ i, proper w.db (requests i))
    (h : Reaches (Config.start w fun i => (requests i).call sha256) c) :
    Accounted requests w.db.book c.log c.db.book := by
  have hstart : Accounted requests w.db.book [] w.db.book := 
    ⟨[], List.nil_sublist _, (List.append_nil _).symm, List.forall_mem_nil _⟩
  exact reaches_turns hw hp h hstart fun hmade hturn => hmade.turn hturn

end

/-- A request that may take from the account `u` of `owner`. -/
def Request.Takes (b : LedgerBook) (owner : String) (u : Uuid) : Request → Prop
  | .open_ .. => False
  | .transfer input _ => input.ownerId = owner ∧ Uuid.parse? input.from_ = some u
  | .reverse transactionId _ => ∃ e ∈ b.entries, Uuid.parse? transactionId = some e.id ∧ 0 < moved e.legs u

/-- Only such a request makes an entry that takes from the account. -/
theorem Entitled.moved_nonneg {b : LedgerBook} {owner : String} {terms : Terms (Option String) String} {e : LedgerEntry}
    (h : Entitled b request e) (hu : b.chart u = some terms) (hdraws : ∀ p, terms.draws p = true → p = owner)
    (hno : ¬ request.Takes b owner u) : 0 ≤ moved e.legs u := by
  cases h with
  | @transfer input id source target currency amount terms' hs ht _ _ hpos hterms hd =>
    have hsource : source ≠ u := by
      rintro rfl
      obtain rfl : terms = terms' := Option.some.inj (hu.symm.trans hterms)
      exact hno ⟨hdraws _ hd, hs⟩
    show 0 ≤ moved [⟨source, -amount⟩, ⟨target, amount⟩] u
    rw [moved_cons, moved_cons, if_neg hsource, moved_nil]
    show 0 ≤ 0 + ((if target = u then (amount : Int) else 0) + 0)
    split <;> omega
  | @reverse transactionId id e hp hmem =>
    have hpaid : ¬ 0 < moved e.legs u := fun hlt => hno ⟨e, hmem, hp, hlt⟩
    show 0 ≤ moved (e.legs.map fun l => ⟨l.account, -l.amount⟩) u
    rw [moved_neg]
    omega

theorem AccountRow.draws_owner {row : AccountRow} {owner : String} (htype : row.type = .user)
    (howner : row.ownerId = some owner) : ∀ p, row.terms.draws p = true → p = owner := by
  intro p hp
  simp only [AccountRow.terms, htype, howner] at hp
  exact (by simpa using hp : owner = p).symm

theorem Accounted.gains {ι : Type} {requests : ι → Request} {log : List (Commit postgres ι Reply)} {start b : LedgerBook}
    (h : Accounted requests start log b) {owner : String} {terms : Terms (Option String) String}
    (hu : b.chart u = some terms) (hdraws : ∀ p, terms.draws p = true → p = owner)
    (hno : ∀ e ∈ log, ¬ (requests e.session).Takes b owner u) : start.balance u ≤ b.balance u := by
  obtain ⟨made, hlog, hentries, hmade⟩ := h
  have hgain : 0 ≤ moved ((made.map Prod.snd).flatMap Entry.legs) u := by
    refine moved_flatMap_nonneg fun e he => ?_
    obtain ⟨m, hm, rfl⟩ := List.mem_map.1 he
    exact (hmade m hm).moved_nonneg hu hdraws (hno m.1 (hlog.subset (List.mem_map_of_mem hm)))
  rw [Book.balance, Book.balance, hentries, List.flatMap_append, moved_append]
  omega

section

variable {ι : Type} [DecidableEq ι] [Fintype ι] {requests : ι → Request} {c : Config postgres ι Reply} {row : AccountRow}

/-- An account stays, and its stored balance is the book's before and after. -/
theorem reaches_stored (hw : Reachable sha256 proper w) (hp : ∀ i, proper w.db (requests i))
    (h : Reaches (Config.start w fun i => (requests i).call sha256) c) (hrow : w.db.accounts.get? u = some row) :
    c.db.book.chart u = some row.terms ∧ ∃ s s', w.db.balances.get? u = some s ∧ c.db.balances.get? u = some s' ∧
      s.balance = w.db.book.balance u ∧ s'.balance = c.db.book.balance u := by
  have hchart : w.db.book.chart u = some row.terms := congrArg (Option.map AccountRow.terms) hrow
  have hkept : c.db.book.chart u = some row.terms :=
    reaches_turns (motive := fun _ b => b.chart u = some row.terms) hw hp h hchart fun ha hturn => hturn.grows.1 _ _ ha
  obtain ⟨row', hrow', -⟩ := Option.map_eq_some_iff.1 hkept
  have hafter := (reaches_office hw hp h).1
  obtain ⟨-, s, hs⟩ := hw.filed.recorded.account u row hrow
  obtain ⟨-, s', hs'⟩ := hafter.recorded.account u row' hrow'
  exact ⟨hkept, s, s', hs, hs', (hw.filed.balance hrow hs).symm, (hafter.balance hrow' hs').symm⟩

/-- **Nobody else's requests take from an account.** In every run in which neither a
transfer of the owner from it nor the reversal of an entry that paid into it commits, the
stored balance of a user's account does not fall. -/
theorem run_guarded (hw : Reachable sha256 proper w) (hp : ∀ i, proper w.db (requests i))
    (h : Reaches (Config.start w fun i => (requests i).call sha256) c) {owner : String}
    (hrow : w.db.accounts.get? u = some row) (htype : row.type = .user) (howner : row.ownerId = some owner)
    (hno : ∀ e ∈ c.log, ¬ (requests e.session).Takes c.db.book owner u) :
    ∃ s s', w.db.balances.get? u = some s ∧ c.db.balances.get? u = some s' ∧ s.balance ≤ s'.balance := by
  obtain ⟨hchart, s, s', hs, hs', hbefore, hafter⟩ := reaches_stored hw hp h hrow
  refine ⟨s, s', hs, hs', ?_⟩
  rw [hbefore, hafter]
  exact (reaches_accounted hw hp h).gains hchart (AccountRow.draws_owner htype howner) hno

end

/-- Two deposits at once, neither of them from Alice's account. -/
theorem run_guarded_deposits : ∃ c : Config postgres (Fin 2) Reply,
    (Config.start Sample.emptyAccounts fun i =>
      (Sample.twoDeposits i).call (Sample.digest Sample.twoDepositsDigests)).play Sample.overlapping = some c ∧
    ∃ s s', Sample.emptyAccounts.db.balances.get? Sample.alice = some s ∧ c.db.balances.get? Sample.alice = some s' ∧
      s.balance ≤ s'.balance := by
  obtain ⟨c, hplay, -⟩ := Sample.overlapping_play
  have hrow : Sample.emptyAccounts.db.accounts.get? Sample.alice = some ⟨.user, "USD", some 0, none, some "alice", 0⟩ := by
    decide +kernel
  have hfrom : ∀ i, ¬ (Sample.twoDeposits i).Takes c.db.book "alice" Sample.alice := by
    have hparse : Uuid.parse? Sample.usd.text ≠ some Sample.alice := by decide
    intro i htakes
    match i, htakes with
    | 0, htakes => exact hparse htakes.2
    | 1, htakes => exact hparse htakes.2
  exact ⟨c, hplay, run_guarded Sample.deposits_proper.1 Sample.deposits_proper.2 (Reaches.of_play (.refl _) hplay) hrow rfl
    rfl fun e _ => hfrom e.session⟩

end MiniLedger
