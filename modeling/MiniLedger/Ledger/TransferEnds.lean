import MiniLedger.Ledger.Recorded

/-!
# How a transfer ends

A transfer alone refuses its input, commits, or ends in an exception of its transaction.
All of these are mapped to a result but two: the database's refusal of a key it cannot store,
and that of a number its `bigint` columns cannot hold.
-/

namespace MiniLedger

open Collections Sessions

variable {sha256 : String → String} {t : Tables} {w : postgres.World} {input : TransferInput} {id : Uuid}
  {currency : Currency} {amount : Nat} {journal : JournalTransaction}

/-! ## The key -/

/-- What the database has against a key. -/
def Tables.checkKey (t : Tables) (key : String) : Except Failure Unit := do
  bindText key
  if (t.keys.get? key).isSome then return ()
  else indexText t.entrySize "idempotency_keys_pkey" key

theorem Tables.checkKey_ok {t : Tables} {key : String} {u : Unit} :
    t.checkKey key = .ok u ↔ Storable key ∧ ((t.keys.get? key).isSome ∨ Indexed t.entrySize key) := by
  simp only [Tables.checkKey, except_bind_ok, bindText_ok, exists_const, Option.mem_some_iff, forall_eq']
  refine and_congr_right fun _ => ?_
  by_cases hsome : (t.keys.get? key).isSome
  · simp [hsome, pure, Except.pure]
  · simp [hsome, indexText_ok]

/-- It is an error of the database. -/
theorem Tables.checkKey_error {t : Tables} {key : String} {e : Failure} (h : t.checkKey key = .error e) :
    ∃ error, e = .query error := by
  have hquery : ∀ {p : Prop} [Decidable p] {code : String} {constraint : Option String} {e : Failure},
      require p code constraint = .error e → ∃ error, e = .query error := by
    intro p _ code constraint e he
    unfold require at he
    split at he <;> cases he
    exact ⟨_, rfl⟩
  rw [Tables.checkKey] at h
  cases hbind : bindText (some key) with
  | error e' =>
    rw [hbind] at h
    cases h
    exact hquery hbind
  | ok u =>
    rw [hbind] at h
    change (if (t.keys.get? key).isSome then _ else _) = _ at h
    split at h
    · cases h
    · exact hquery h

/-- The `INSERT` of a key fails with what the database has against it. -/
theorem insertKey_error {n : Nat} {key fingerprint : String} {e : Failure}
    (h : Stmt.exec (.insertKey key fingerprint) n t = .error e) : t.checkKey key = .error e := by
  rw [Stmt.exec] at h
  rw [Tables.checkKey]
  cases hbind : bindText (some key) with
  | error e' =>
    rw [hbind] at h
    cases h
    rfl
  | ok u =>
    rw [hbind] at h
    cases hg : t.keys.get? key with
    | some row =>
      simp only [bind, Except.bind, hg] at h
      cases h
    | none =>
      simp only [bind, Except.bind, hg] at h ⊢
      cases hindex : indexText t.entrySize "idempotency_keys_pkey" key with
      | error e' =>
        rw [hindex] at h
        cases h
        rfl
      | ok u =>
        rw [hindex] at h
        cases h

theorem claim_ends {db : Tables} {ws : List Write} {key fingerprint : String} :
    postgres.Ends db (fun _ _ => (postgres.view db ws).checkKey key = .ok ())
      (fun e => (postgres.view db ws).checkKey key = .error e) (IdempotencyRepository.claim key fingerprint) ws := by
  refine Engine.ends_bind fun n => ⟨fun inserted new hx => ?_, fun e he => insertKey_error (n := n) he⟩
  obtain ⟨hstore, hx⟩ := (exec_insertKey (n := n)).1 hx
  cases hg : (postgres.view db ws).keys.get? key with
  | none =>
    rw [hg] at hx
    obtain ⟨hindex, rfl, rfl⟩ := hx
    exact Tables.checkKey_ok.2 ⟨hstore, .inr hindex⟩
  | some row =>
    rw [hg] at hx
    obtain ⟨rfl, rfl⟩ := hx
    rw [List.append_nil]
    have hread : postgres.read (postgres.view db ws) (ask (.key key)) = .ok (some (row.fingerprint, row.response)) := by
      have hbind : bindText (some key) = .ok () := bindText_ok.2 (by simpa using hstore)
      simp only [Prog.ask, Engine.read, Query.answer, hbind, bind, Except.bind, pure, Except.pure, hg, Option.map_some]
    refine Engine.ends_bind (Engine.ends_lift (fun o ho => ?_) fun e he => ?_)
    · cases hread.symm.trans ho
      exact Tables.checkKey_ok.2 ⟨hstore, .inl (by rw [hg]; rfl)⟩
    · cases hread.symm.trans he

theorem complete_ends {db : Tables} {ws : List Write} {key : String} {response : TransferReceipt} {row : KeyRow}
    (hstore : Storable key) (hkey : (postgres.view db ws).keys.get? key = some row) (hjournal : ((postgres.view db ws).journals.get? id).isSome) :
    postgres.Ends db (fun _ ws' => ws' = ws ++ [.key key ⟨row.fingerprint, some id, some response⟩]) (fun _ => False)
      (IdempotencyRepository.complete key id.text response) ws := by
  have hexec : ∀ n, postgres.exec (.completeKey key id.text response) n (postgres.view db ws) =
      .ok ((), [.key key ⟨row.fingerprint, some id, some response⟩]) := fun n =>
    (exec_completeKey (n := n)).2 ⟨id, id.parse?_text, hstore, .inr ⟨row, hkey, hjournal, rfl⟩⟩
  intro n
  refine ⟨fun _ new hx => ?_, fun e he => ?_⟩
  · cases (hexec n).symm.trans hx
    rfl
  · cases (hexec n).symm.trans he

/-! ## The transaction -/

/-- What refuses a journal does not depend on the keys. -/
theorem Refuses.of_keys {keys : Keyed String KeyRow} {postings : List Posting} {requireOwner : Option String}
    {code : PostingError} (h : Refuses { t with keys := keys } postings currency requireOwner code) :
    Refuses t postings currency requireOwner code := by
  cases h with
  | unknownAccount leg parsed unknown => exact .unknownAccount leg parsed unknown
  | accountCurrencyMismatch leg named mismatch => exact .accountCurrencyMismatch leg named mismatch
  | notAccountOwner required leg negative named spelled user foreign =>
    exact .notAccountOwner required leg negative named spelled user foreign
  | insufficientFunds leg named spelled floored locked below =>
    exact .insufficientFunds leg named spelled floored locked below

theorem Refuses.with_keys (keys : Keyed String KeyRow) {postings : List Posting} {requireOwner : Option String}
    {code : PostingError} (h : Refuses t postings currency requireOwner code) :
    Refuses { t with keys := keys } postings currency requireOwner code := Refuses.of_keys (t := { t with keys := keys }) h

/-- A transaction has claimed the key of the request and committed. -/
def Claimed (t : Tables) (input : TransferInput) : Prop :=
  ∃ key ∈ TransferService.claimedKey input.idempotencyKey, (t.keys.get? key).isSome

/-- The database takes the key the transfer claims, if it claims one: the character U+0000 is
not in it, and it is stored already or short enough for its index. -/
def KeyAccepted (t : Tables) (input : TransferInput) : Prop :=
  ∀ key ∈ TransferService.claimedKey input.idempotencyKey,
    Storable key ∧ ((t.keys.get? key).isSome ∨ Indexed t.entrySize key)

/-- Why the transaction of a transfer that passed its checks throws `e`. -/
inductive TransferThrows (t : Tables) (input : TransferInput) (id : Uuid) (currency : Currency) (amount : Nat) :
    Failure → Prop where
  | badKey {key e} (claimed : key ∈ TransferService.claimedKey input.idempotencyKey) (refused : t.checkKey key = .error e) :
      TransferThrows t input id currency amount e
  | refused {code} (key : KeyAccepted t input) (refuses : Refuses t (transferLegs input.from_ input.to_ amount currency) currency
      (some input.ownerId) code) : TransferThrows t input id currency amount (.posting code)
  | conflict (key : KeyAccepted t input) (claimed : Claimed t input) : TransferThrows t input id currency amount (.transfer .idempotencyConflict)
  | duplicate (taken : (t.journals.get? id).isSome) : TransferThrows t input id currency amount duplicateId
  | overflow (unclaimed : ¬ Claimed t input)
      (accepted : ∀ code, ¬ Refuses t (transferLegs input.from_ input.to_ amount currency) currency
        (some input.ownerId) code)
      (unfit : ¬ Fits t (transferLegs input.from_ input.to_ amount currency)) :
      TransferThrows t input id currency amount outOfRange

/-- What the transaction of a transfer has done when it returns. -/
def TransferReturns (t : Tables) (input : TransferInput) (currency : Currency) (amount : Nat) (r : Reply)
    (ws : List Write) : Prop :=
  (∃ o, r = .transferred (.ok o)) ∧ Recorded (postgres.view t ws) ∧ KeyAccepted t input ∧
    (Claimed t input ∨ Fits t (transferLegs input.from_ input.to_ amount currency))

theorem Recorded.keys (h : Recorded t) (keys : Keyed String KeyRow) : Recorded { t with keys := keys } :=
  ⟨h.account, h.journal, h.posting, h.balanced, h.parameters⟩

variable (sha256) in
theorem Recorded.transfer_post {db : Tables} {ws : List Write} (ht : postgres.view db ws = t) (h : Recorded t)
    (hch : Checked input id currency amount journal) (hfrom : ∃ u, Uuid.parse? input.from_ = some u)
    (hto : ∃ u, Uuid.parse? input.to_ = some u) :
    postgres.Ends db
      (fun _ ws' => (∃ b : Booking, b.Valid sha256 t journal currency (transferOptions input.ownerId) ∧ ws' = ws ++ b.writes) ∧
        Fits t (transferLegs input.from_ input.to_ amount currency))
      (fun e => (∃ code, e = .posting code ∧ Refuses t (transferLegs input.from_ input.to_ amount currency) currency
          (some input.ownerId) code) ∨ (e = duplicateId ∧ (t.journals.get? id).isSome) ∨
        (e = outOfRange ∧ (∀ code, ¬ Refuses t (transferLegs input.from_ input.to_ amount currency) currency
          (some input.ownerId) code) ∧ ¬ Fits t (transferLegs input.from_ input.to_ amount currency)))
      (TransferService.postTransfer sha256 journal currency input.ownerId) ws := by
  subst ht
  have hreadable : ∀ p ∈ journal.postings, Readable (postgres.view db ws) p.accountId.value := by
    rw [hch.postings]
    intro p hp
    rcases List.mem_pair.1 hp with rfl | rfl
    · exact h.readable hfrom.choose_spec
    · exact h.readable hto.choose_spec
  have hpost := @LedgerPoster.post_ends db ws sha256 journal currency (transferOptions input.ownerId) id
    hreadable hch.journal_currency (hch.journal_id ▸ id.parse?_text) ⟨none, trivial, by simp⟩
  rw [hch.postings] at hpost
  refine hpost.and_yields.mono (fun receipt ws' hy => ?_) fun e he => ?_
  · obtain ⟨⟨-, -, -, hfits⟩, hy⟩ := hy
    obtain ⟨b, hv, -, rfl⟩ := post_yields hy
    exact ⟨⟨b, hv, rfl⟩, hfits⟩
  · rcases he with hrefuse | ⟨hnone, ⟨rfl, htaken⟩ | ⟨-, ⟨rfl, hmany⟩ | ⟨rfl, -, hout⟩⟩⟩
    · exact .inl hrefuse
    · exact .inr (.inl ⟨rfl, htaken⟩)
    · exact absurd (by decide : 6 * 2 ≤ 65535) hmany
    · exact .inr (.inr ⟨rfl, hnone, hout⟩)

variable (sha256) in
theorem Recorded.transfer_body (h : Recorded t) (hch : Checked input id currency amount journal)
    (hfrom : ∃ u, Uuid.parse? input.from_ = some u) (hto : ∃ u, Uuid.parse? input.to_ = some u) :
    postgres.Ends t (TransferReturns t input currency amount) (TransferThrows t input id currency amount)
      (TransferService.body sha256 input currency journal) [] := by
  rw [TransferService.body, TransferService.run]
  cases hk : TransferService.claimedKey input.idempotencyKey with
  | none =>
    have hunclaimed : ¬ Claimed t input := by
      rintro ⟨key, hkey, -⟩
      rw [hk] at hkey
      cases hkey
    have hkey : KeyAccepted t input := by
      intro key hclaims
      rw [hk] at hclaims
      cases hclaims
    refine Engine.ends_bind (Engine.ends_bind ((h.transfer_post sha256 (view_nil t) hch hfrom hto).mono
      (fun receipt ws hpost => ?_) fun e he => ?_))
    · obtain ⟨⟨b, hv, rfl⟩, hfits⟩ := hpost
      exact ⟨⟨_, rfl⟩, h.booked hv hch.journal_currency (booked_writes t b), hkey, .inr hfits⟩
    · rcases he with ⟨code, rfl, hrefuse⟩ | ⟨rfl, htaken⟩ | ⟨rfl, hnone, hout⟩
      · exact .refused hkey hrefuse
      · exact .duplicate htaken
      · exact .overflow hunclaimed hnone hout
  | some key =>
    refine Engine.ends_bind (Engine.ends_bind (claim_ends.and_yields.mono (fun c ws hc => ?_) fun e he => .badKey hk he))
    have hchecked : t.checkKey key = .ok () := hc.1
    have hkeyed : KeyAccepted t input := by
      intro key' hclaims
      obtain rfl : key = key' := Option.some.inj (hk.symm.trans hclaims)
      exact Tables.checkKey_ok.1 hchecked
    obtain ⟨hnone, rfl, rfl⟩ | ⟨row, hrow, rfl, rfl⟩ := claim_yields hc.2
    · -- the key is new
      have hclaim : postgres.view t [.key key ⟨TransferService.fingerprint sha256 input, none, none⟩] =
          { t with keys := t.keys.set key ⟨TransferService.fingerprint sha256 input, none, none⟩ } := rfl
      have hunclaimed : ¬ Claimed t input := by
        rintro ⟨key', hkey', hsome⟩
        rw [hk] at hkey'
        cases hkey'
        have hnone : t.keys.get? key = none := hnone
        rw [hnone] at hsome
        cases hsome
      have hpost := (h.keys (t.keys.set key ⟨TransferService.fingerprint sha256 input, none, none⟩)).transfer_post
        sha256 hclaim hch hfrom hto
      refine Engine.ends_bind (hpost.mono (fun receipt ws hpost => ?_) fun e he => ?_)
      · obtain ⟨⟨b, hv, rfl⟩, hfits⟩ := hpost
        have hbooked := booked_writes { t with keys := t.keys.set key ⟨TransferService.fingerprint sha256 input, none, none⟩ } b
        have hview : postgres.view t ([.key key ⟨TransferService.fingerprint sha256 input, none, none⟩] ++ b.writes) =
            postgres.view { t with keys := t.keys.set key ⟨TransferService.fingerprint sha256 input, none, none⟩ } b.writes :=
          view_append ..
        have hkey : (postgres.view t ([.key key ⟨TransferService.fingerprint sha256 input, none, none⟩] ++
            b.writes)).keys.get? key = some ⟨TransferService.fingerprint sha256 input, none, none⟩ := b.claimed_key ..
        have hid : b.id = id := hch.id_of_parse hv.id
        have hjournal : ((postgres.view t ([.key key ⟨TransferService.fingerprint sha256 input, none, none⟩] ++
            b.writes)).journals.get? id).isSome := by
          rw [hview, hbooked.journals, hid, Keyed.get?_set_self]
          rfl
        rw [hch.journal_id]
        refine Engine.ends_bind ((complete_ends (Tables.checkKey_ok.1 hchecked).1 hkey hjournal).mono (fun _ ws hws => ?_) fun e he => he.elim)
        subst hws
        refine ⟨⟨_, rfl⟩, ?_, hkeyed, .inr hfits⟩
        rw [view_append, hview]
        exact (((h.keys _).booked hv hch.journal_currency hbooked).keys _)
      · rcases he with ⟨code, rfl, hrefuse⟩ | ⟨rfl, htaken⟩ | ⟨rfl, hnone, hout⟩
        · exact .refused hkeyed hrefuse.of_keys
        · exact .duplicate htaken
        · exact .overflow hunclaimed (fun code hrefuse => hnone code (hrefuse.with_keys _)) hout
    · -- the key is taken
      have hclaimed : Claimed t input := ⟨key, hk, by rw [show t.keys.get? key = some row from hrow]; rfl⟩
      show postgres.Ends t _ _ (if row.fingerprint ≠ TransferService.fingerprint sha256 input then
        Prog.throw (.transfer .idempotencyConflict) else Prog.pure row.response) _
      split
      · exact .conflict hkeyed hclaimed
      · exact ⟨⟨_, rfl⟩, h, hkeyed, .inl hclaimed⟩

/-! ## The call -/

variable (sha256) in
/-- What passes the checks runs one transaction. -/
theorem transfer_checked (hof : Currency.of input.currency = .ok currency)
    (hamount : TransferService.parseAmount input.amount = some amount) (hpos : 0 < amount) (hne : input.from_ ≠ input.to_)
    (id : Uuid) : ∃ journal, Checked input id currency amount journal ∧ TransferService.transfer sha256 input id =
      .pure (.transaction (TransferService.body sha256 input currency journal) TransferService.recover) := by
  have hcreate : ∃ j, JournalTransaction.create id.text
      [⟨⟨input.from_⟩, Money.negate ⟨amount, currency⟩⟩, ⟨⟨input.to_⟩, ⟨amount, currency⟩⟩] = .ok (.ok j) ∧
      j.id = id.text ∧ j.currency = currency ∧ j.postings = _ := JournalTransaction.create_eq_ok
    (by simp) (by simp [Money.negate]) (by simp [Money.negate]; omega) (by simp [Money.negate])
  obtain ⟨journal, hjournal, hid, hcur, hpostings⟩ := hcreate
  refine ⟨journal, ⟨hof, hamount, hpos, hne, hid, hcur, hpostings⟩, ?_⟩
  rw [TransferService.transfer, hof]
  simp only [hamount, if_neg (Nat.pos_iff_ne_zero.1 hpos), if_neg hne, JournalTransaction.transfer, hjournal]
  rfl

/-- The body passes the checks before the transaction. -/
def Passes (input : TransferInput) : Prop :=
  ∃ currency amount, Currency.of input.currency = .ok currency ∧
    TransferService.parseAmount input.amount = some amount ∧ 0 < amount ∧ input.from_ ≠ input.to_

variable (sha256) in
/-- What does not pass them is refused. -/
theorem transfer_refused (h : ¬ Passes input) (id : Uuid) :
    ∃ code, TransferService.transfer sha256 input id = TransferService.refuse code ∧
      (code = .unknownCurrency ↔ ∃ e, Currency.of input.currency = .error e) := by
  rw [TransferService.transfer]
  split
  · rename_i e hof
    exact ⟨_, rfl, fun _ => ⟨e, hof⟩, fun _ => rfl⟩
  · rename_i currency hof
    split
    · exact ⟨_, rfl, by simp [hof]⟩
    · rename_i amount hamount
      split
      · exact ⟨_, rfl, by simp [hof]⟩
      · rename_i hpos
        split
        · exact ⟨_, rfl, by simp [hof]⟩
        · rename_i hne
          exact absurd ⟨currency, amount, hof, hamount, Nat.pos_of_ne_zero hpos, hne⟩ h

/-- The transfer passes every check, and an amount or a balance of its legs is no `bigint`. -/
def Overflows (t : Tables) (input : TransferInput) : Prop :=
  ∃ currency amount, Currency.of input.currency = .ok currency ∧
    TransferService.parseAmount input.amount = some amount ∧ 0 < amount ∧ input.from_ ≠ input.to_ ∧ ¬ Claimed t input ∧
    (∀ code, ¬ Refuses t (transferLegs input.from_ input.to_ amount currency) currency (some input.ownerId) code) ∧
    ¬ Fits t (transferLegs input.from_ input.to_ amount currency)

/-- The numbers a transfer writes: the amount and the two balances after it. -/
theorem fits_transferLegs {u v : Uuid} {s s' : BalanceRow} (hne : input.from_ ≠ input.to_)
    (hu : Uuid.parse? input.from_ = some u) (hv : Uuid.parse? input.to_ = some v) (hs : t.balances.get? u = some s)
    (hs' : t.balances.get? v = some s') :
    Fits t (transferLegs input.from_ input.to_ amount currency) ↔
      Int8 (-amount) ∧ Int8 (s.balance - amount) ∧ Int8 amount ∧ Int8 (s'.balance + amount) := by
  have hdebit : LedgerPoster.movedUpTo (transferLegs input.from_ input.to_ amount currency) 0 input.from_ = -amount :=
    LedgerPoster.movedUpTo_zero (debit input.from_ amount currency) _
  have hcredit : LedgerPoster.movedUpTo (transferLegs input.from_ input.to_ amount currency) 1 input.to_ = amount := by
    simp [LedgerPoster.movedUpTo, LedgerPoster.moved, transferLegs, debit, credit, hne]
  constructor
  · intro h
    have hfrom := h 0 (debit input.from_ amount currency) u s rfl hu hs
    have hto := h 1 (credit input.to_ amount currency) v s' rfl hv hs'
    refine ⟨hfrom.1, ?_, hto.1, ?_⟩
    · rw [Int.sub_eq_add_neg, ← hdebit]; exact hfrom.2
    · have hafter := hto.2
      show Int8 (s'.balance + (amount : Int))
      rw [← hcredit]; exact hafter
  · rintro ⟨hfrom, hfrom', hto, hto'⟩ i p x sx hp hx hsx
    obtain _ | _ | i := i
    · cases hp
      obtain rfl : u = x := Option.some.inj (hu.symm.trans hx)
      obtain rfl : s = sx := Option.some.inj (hs.symm.trans hsx)
      refine ⟨hfrom, ?_⟩
      show Int8 (s.balance + LedgerPoster.movedUpTo (transferLegs input.from_ input.to_ amount currency) 0 input.from_)
      rw [hdebit, ← Int.sub_eq_add_neg]
      exact hfrom'
    · cases hp
      obtain rfl : v = x := Option.some.inj (hv.symm.trans hx)
      obtain rfl : s' = sx := Option.some.inj (hs'.symm.trans hsx)
      refine ⟨hto, ?_⟩
      show Int8 (s'.balance + LedgerPoster.movedUpTo (transferLegs input.from_ input.to_ amount currency) 1 input.to_)
      rw [hcredit]
      exact hto'
    · cases hp

variable (sha256) in
/-- How a transfer that passes its checks ends. -/
theorem Recorded.transfer_serve (h : Recorded w.db) (ha : input.Admitted) (hof : Currency.of input.currency = .ok currency)
    (hamount : TransferService.parseAmount input.amount = some amount) (hpos : 0 < amount) (hne : input.from_ ≠ input.to_)
    (id : Uuid) :
    (∃ r ws, TransferReturns w.db input currency amount r ws ∧ (serve sha256 (.transfer input id) w).1 = .ok r) ∨
      ∃ e, TransferThrows w.db input id currency amount e ∧
        (serve sha256 (.transfer input id) w).1 = TransferService.recover e := by
  obtain ⟨journal, hch, hcall⟩ := transfer_checked sha256 hof hamount hpos hne id
  have hread : postgres.read w.db (TransferService.transfer sha256 input id) =
      .ok (.transaction (TransferService.body sha256 input currency journal) TransferService.recover) := by
    rw [hcall]
    rfl
  have hends := h.transfer_body sha256 hch (parse?_of_isUuid ha.1) (parse?_of_isUuid ha.2.1)
  rcases hends.serve hread fun _ _ hpost => hpost.2.1.settle _ with ⟨r, ws, hreturns, hres, -⟩ | ⟨e, hthrows, hres, -⟩
  · exact .inl ⟨r, ws, hreturns, hres⟩
  · exact .inr ⟨e, hthrows, hres⟩

/-- The database refuses neither the key nor a number of the transfer. -/
def Accepted (t : Tables) (input : TransferInput) : Prop :=
  (Passes input → KeyAccepted t input) ∧ ¬ Overflows t input

variable (sha256) in
/-- How a transfer alone ends. -/
theorem Recorded.transfer_ends (h : Recorded w.db) (ha : input.Admitted) (hid : w.db.journals.get? id = none) :
    ((∃ r, (serve sha256 (.transfer input id) w).1 = .ok (.transferred r)) ∧ Accepted w.db input) ∨
      ((∃ e, (serve sha256 (.transfer input id) w).1 = .error e) ∧ ¬ Accepted w.db input) := by
  by_cases hpass : Passes input
  · have hpassed := hpass
    obtain ⟨currency, amount, hof, hamount, hpos, hne⟩ := hpass
    -- the condition, for the currency and the amount at hand
    have hoverflows : Overflows w.db input ↔ ¬ Claimed w.db input ∧
        (∀ code, ¬ Refuses w.db (transferLegs input.from_ input.to_ amount currency) currency (some input.ownerId) code) ∧
        ¬ Fits w.db (transferLegs input.from_ input.to_ amount currency) := by
      constructor
      · rintro ⟨currency', amount', hof', hamount', -, -, hrest⟩
        obtain rfl : currency = currency' := Except.ok.inj (hof.symm.trans hof')
        obtain rfl : amount = amount' := Option.some.inj (hamount.symm.trans hamount')
        exact hrest
      · intro hrest
        exact ⟨currency, amount, hof, hamount, hpos, hne, hrest⟩
    rcases h.transfer_serve sha256 ha hof hamount hpos hne id with ⟨r, ws, ⟨⟨o, rfl⟩, -, hkey, hout⟩, hres⟩ | ⟨e, he, hres⟩
    · refine .inl ⟨⟨_, hres⟩, fun _ => hkey, fun hover => ?_⟩
      obtain ⟨hunclaimed, -, hunfit⟩ := hoverflows.1 hover
      rcases hout with hclaimed | hfits
      · exact hunclaimed hclaimed
      · exact hunfit hfits
    · rw [hres]
      cases he with
      | badKey hclaims hrefused =>
        obtain ⟨error, rfl⟩ := Tables.checkKey_error hrefused
        refine .inr ⟨⟨_, rfl⟩, fun haccepted => ?_⟩
        have hok : w.db.checkKey _ = .ok () := Tables.checkKey_ok.2 (haccepted.1 hpassed _ hclaims)
        cases hok.symm.trans hrefused
      | refused hkey hrefuse => exact .inl ⟨⟨_, rfl⟩, fun _ => hkey, fun hover => (hoverflows.1 hover).2.1 _ hrefuse⟩
      | conflict hkey hclaimed => exact .inl ⟨⟨_, rfl⟩, fun _ => hkey, fun hover => (hoverflows.1 hover).1 hclaimed⟩
      | duplicate htaken => rw [hid] at htaken; cases htaken
      | overflow hunclaimed haccepted hunfit =>
        exact .inr ⟨⟨_, rfl⟩, fun h => h.2 (hoverflows.2 ⟨hunclaimed, haccepted, hunfit⟩)⟩
  · obtain ⟨code, hcall, -⟩ := transfer_refused sha256 hpass id
    refine .inl ⟨⟨.error code, ?_⟩, fun hpassed => absurd hpassed hpass, ?_⟩
    · rw [serve, Request.call, hcall]
      rfl
    · rintro ⟨currency, amount, hof, hamount, hpos, hne, -⟩
      exact hpass ⟨currency, amount, hof, hamount, hpos, hne⟩

/-- A result, and an error that changed nothing. -/
def EndsTyped (sha256 : String → String) (w : postgres.World) (input : TransferInput) (id : Uuid) : Prop :=
  (∃ r, (serve sha256 (.transfer input id) w).1 = .ok (.transferred r)) ∧
    ∀ code, (serve sha256 (.transfer input id) w).1 = .ok (.transferred (.error code)) →
      (serve sha256 (.transfer input id) w).2.db = w.db

/-- **A transfer ends in a typed result if the database takes its key and its numbers.** In
every state of a run, for every admitted body, subject and key, and a new id. -/
theorem transfer_endsTyped_iff (h : Reachable sha256 admitted w) (ha : input.Admitted)
    (hid : w.db.journals.get? id = none) : EndsTyped sha256 w input id ↔ Accepted w.db input := by
  have hends := h.recorded.transfer_ends sha256 ha hid
  constructor
  · rintro ⟨⟨r, hr⟩, -⟩
    rcases hends with ⟨-, haccepted⟩ | ⟨⟨e, herror⟩, -⟩
    · exact haccepted
    · cases hr.symm.trans herror
  · intro haccepted
    rcases hends with ⟨hres, -⟩ | ⟨-, hnot⟩
    · refine ⟨hres, fun code hcode => ?_⟩
      rcases @serve_committed sha256 (.transfer input id) w with hkept | ⟨r, ws, hr, hc, -⟩
      · exact hkept
      · cases hcode.symm.trans hr
        cases hc
    · exact absurd haccepted hnot

/-- The rule covers the deposit that funds an account: no key is sent, and its numbers fit. -/
theorem transfer_endsTyped_deposit :
    EndsTyped (Sample.digest Sample.fundingDigests) Sample.openedWorld
      (Sample.pay Sample.usd.text Sample.alice.text "100" "alice") Sample.deposit := by
  have h : Sample.openedWorld.db.journals.get? Sample.deposit = none ∧
      Sample.openedWorld.db.balances.get? Sample.usd = some ⟨0, none⟩ ∧
      Sample.openedWorld.db.balances.get? Sample.alice = some ⟨0, none⟩ ∧
      TransferService.parseAmount "100" = some 100 := by decide +kernel
  obtain ⟨hid, husd, halice, hparse⟩ := h
  refine (transfer_endsTyped_iff (Sample.reachable_after (by decide)) (by decide) hid).2 ⟨fun _ key hkey => ?_, ?_⟩
  · cases hkey
  · rintro ⟨currency, amount, -, hamount, -, -, -, -, hunfit⟩
    obtain rfl : 100 = amount := Option.some.inj (hparse.symm.trans hamount)
    exact hunfit ((fits_transferLegs (by decide) Sample.usd.parse?_text Sample.alice.parse?_text husd halice).2 (by decide))

namespace Sample

def overflowDigests : List (String × String) :=
  [("|".intercalate ["alice", usd.text, alice.text, "9223372036854775808", "USD"],
      "e2d16894d9f27ec7e0ce7dea71813e282a1cd052054682f48bb1cf828a4f4642"),
    ("|".intercalate ["", deposit.text, usd.text, "-9223372036854775808", "-9223372036854775808"],
      "d844013bf90483108bfd666a077618ad799be982277392bf67ee557cd153d62f"),
    ("|".intercalate ["", deposit.text, alice.text, "9223372036854775808", "9223372036854775808"],
      "9e8360083c658203fb8d643f7bdf01e1d51580c82b5db7d2262cc9a139de7536")]

/-- A deposit of 2 ^ 63 cents. -/
def tooMuch : TransferInput := pay usd.text alice.text "9223372036854775808" "alice"

end Sample

/-- A deposit of 2 ^ 63 ends in the error of the database. -/
theorem not_endsTyped_tooMuch :
    Reachable (Sample.digest Sample.overflowDigests) admitted (Sample.after Sample.overflowDigests [Sample.openAlice]) ∧
      Sample.tooMuch.Admitted ∧
      (Sample.after Sample.overflowDigests [Sample.openAlice]).db.journals.get? Sample.deposit = none ∧
      ¬ EndsTyped (Sample.digest Sample.overflowDigests) (Sample.after Sample.overflowDigests [Sample.openAlice])
        Sample.tooMuch Sample.deposit := by
  have h : (Sample.after Sample.overflowDigests [Sample.openAlice]).db.journals.get? Sample.deposit = none ∧
      (serve (Sample.digest Sample.overflowDigests) (.transfer Sample.tooMuch Sample.deposit)
        (Sample.after Sample.overflowDigests [Sample.openAlice])).1.toOption = none := by decide +kernel
  refine ⟨Sample.reachable_after (by decide), by decide, h.1, ?_⟩
  rintro ⟨⟨r, hr⟩, -⟩
  rw [hr] at h
  cases h.2

end MiniLedger
