import MiniLedger.Ledger.Refinement

/-!
# Which currencies are recognised

`codes` lists the own properties of `SUPPORTED`; `of` reads any property. The two differ in
the members every object inherits. A currency of that kind has no code to write, so no
account can be opened in it, and a transfer in it is refused for its accounts. Nor can one be
opened for an owner whose name the database does not take.
-/

namespace MiniLedger

open Collections Sessions

variable {sha256 : String → String} {w : postgres.World} {c ownerId : String} {id : Uuid} {now : Nat}

namespace Currency

theorem codes_not_inherited (h : c ∈ codes) : c ∉ objectPrototype := by
  simp only [codes, supported, List.map_cons, List.map_nil, List.mem_cons, List.not_mem_nil, or_false] at h
  rcases h with rfl | rfl | rfl <;> decide

/-- What is not listed is unknown, or inherited and without a code. -/
theorem of_unlisted (h : c ∉ codes) :
    (c ∉ objectPrototype ∧ of c = .error .unknownCurrency) ∨ (c ∈ objectPrototype ∧ of c = .ok ⟨none, none⟩) := by
  have hnone : supported.lookup c = none := by
    cases hl : supported.lookup c with
    | none => rfl
    | some d => exact absurd (lookup_supported hl).1 h
  rw [of, property, hnone]
  by_cases hm : c ∈ objectPrototype
  · exact .inr ⟨hm, by rw [if_pos hm]⟩
  · exact .inl ⟨hm, by rw [if_neg hm]⟩

/-- `of` recognises just what is listed, and reads it back. -/
def Recognised (c : String) : Prop :=
  ((∃ currency, of c = .ok currency) ↔ c ∈ codes) ∧ ∀ currency, of c = .ok currency → currency.code = some c

theorem recognised_iff : Recognised c ↔ c ∉ objectPrototype := by
  by_cases h : c ∈ codes
  · obtain ⟨currency, hof, hcode⟩ := of_supported h
    refine ⟨fun _ => codes_not_inherited h, fun _ => ⟨⟨fun _ => h, fun _ => ⟨currency, hof⟩⟩, fun currency' hof' => ?_⟩⟩
    obtain rfl : currency = currency' := Except.ok.inj (hof.symm.trans hof')
    exact hcode
  · rcases of_unlisted h with ⟨hm, hof⟩ | ⟨hm, hof⟩
    · refine ⟨fun _ => hm, fun _ => ⟨⟨fun ⟨currency, hof'⟩ => ?_, fun hc => absurd hc h⟩, fun currency hof' => ?_⟩⟩
      · cases hof.symm.trans hof'
      · cases hof.symm.trans hof'
    · exact ⟨fun hr => absurd (hr.1.1 ⟨_, hof⟩) h, fun hn => absurd hm hn⟩

end Currency

/-! ## Opening an account -/

theorem open_read {currency : Currency} (hof : Currency.of c = .ok currency) (db : Tables) (id : Uuid) (now : Nat) :
    postgres.read db (AccountsService.open_ ⟨c, ownerId⟩ id now) =
      .ok (.transaction (AccountsService.body (Account.openUser ⟨id.text⟩ currency ownerId now)) .error) := by
  rw [AccountsService.open_, hof]
  rfl

/-- A new account nothing is held against is saved with its balance row. -/
theorem open_body {db : Tables} {currency : Currency} {code : String}
    (hchecked : db.office.checkAccount currency.code ownerId id = .ok code) (hbalance : db.balances.get? id = none) :
    postgres.Ends db (fun r ws => r = .opened (.ok (Account.openUser ⟨id.text⟩ currency ownerId now)) ∧
        ws = AccountsService.writes id code ownerId now) (fun _ => False)
      (AccountsService.body (Account.openUser ⟨id.text⟩ currency ownerId now)) [] := by
  have hsave : ∀ n, Stmt.exec (.insertAccount (AccountsRepository.toRow (Account.openUser ⟨id.text⟩ currency ownerId now)))
      n db = (db.office.checkAccount currency.code ownerId id).map _ := fun n => insertAccount_checked n rfl rfl rfl rfl
  rw [hchecked] at hsave
  refine Engine.ends_bind fun n => ⟨fun _ new hx => ?_, fun e he => ?_⟩
  swap
  · cases (hsave n).symm.trans he
  cases (hsave n).symm.trans hx
  have hinit : ∀ n, Stmt.exec (.insertBalance id.text) n
      (postgres.view db [.account id ⟨.user, code, some 0, none, some ownerId, now⟩]) = .ok ((), [.balance id ⟨0, none⟩]) :=
    fun n => exec_insertBalance.2 ⟨id, id.parse?_text, hbalance, by
      show ((db.accounts.set id _).get? id).isSome
      rw [Keyed.get?_set_self]
      rfl, rfl⟩
  refine Engine.ends_bind fun n => ⟨fun _ new hx => ?_, fun e he => ?_⟩
  · cases (hinit n).symm.trans hx
    exact ⟨rfl, rfl⟩
  · cases (hinit n).symm.trans he

/-- What is held against a new account ends the transaction. -/
theorem open_body_refused {db : Tables} {currency : Currency} {e : Failure}
    (hchecked : db.office.checkAccount currency.code ownerId id = .error e) :
    postgres.Ends db (fun _ _ => False) (fun e' => e' = e)
      (AccountsService.body (Account.openUser ⟨id.text⟩ currency ownerId now)) [] := by
  have hsave : ∀ n, Stmt.exec (.insertAccount (AccountsRepository.toRow (Account.openUser ⟨id.text⟩ currency ownerId now)))
      n db = (db.office.checkAccount currency.code ownerId id).map _ := fun n => insertAccount_checked n rfl rfl rfl rfl
  rw [hchecked] at hsave
  refine Engine.ends_bind fun n => ⟨fun _ new hx => ?_, fun e he => ?_⟩
  · cases (hsave n).symm.trans hx
  · cases (hsave n).symm.trans he
    rfl

/-- The deferred trigger has nothing to check. -/
theorem settle_without_postings {t : Tables} {ws : List Write} (h : ws.filterMap Write.posting? = []) :
    postgres.settle t ws = .ok () := by
  show Tables.balanced t ws = .ok ()
  rw [Tables.balanced, require_ok, h]
  exact fun p hp => absurd hp List.not_mem_nil

/-- `open` refuses what is not listed and writes nothing; otherwise it commits one user
account, floored at zero, and one empty balance row. -/
def OpensListed (sha256 : String → String) (w : postgres.World) (input : OpenAccountInput) (id : Uuid) (now : Nat) : Prop :=
  (input.currency ∉ Currency.codes →
    (serve sha256 (.open_ input id now) w).1 = .ok (.opened (.error .unknownCurrency)) ∧
      (serve sha256 (.open_ input id now) w).2.db = w.db) ∧
  (input.currency ∈ Currency.codes →
    (∃ account, (serve sha256 (.open_ input id now) w).1 = .ok (.opened (.ok account)) ∧ account.id.value = id.text ∧
      account.currency.code = some input.currency) ∧
      (serve sha256 (.open_ input id now) w).2.db =
        { w.db with
          accounts := w.db.accounts.set id ⟨.user, input.currency, some 0, none, some input.ownerId, now⟩
          balances := w.db.balances.set id ⟨0, none⟩ })

/-- The database takes the owner of a new account: the character U+0000 is not in its name,
and the name is short enough for the index on it. -/
def OwnerAccepted (t : Tables) (ownerId : String) : Prop := Storable ownerId ∧ Indexed t.entrySize ownerId

/-- In what is listed an account is opened if the database takes the owner. -/
theorem opensListed_listed (haccount : w.db.accounts.get? id = none) (hbalance : w.db.balances.get? id = none)
    (h : c ∈ Currency.codes) : OpensListed sha256 w ⟨c, ownerId⟩ id now ↔ OwnerAccepted w.db ownerId := by
  have hchart : w.db.office.book.chart id = none := congrArg (Option.map AccountRow.terms) haccount
  obtain ⟨currency, hof, hcode⟩ := Currency.of_supported h
  cases hchecked : w.db.office.checkAccount currency.code ownerId id with
  | ok code =>
    obtain ⟨hstore, hcode', -, hindex⟩ := Office.checkAccount_ok.1 hchecked
    obtain rfl : c = code := Option.some.inj (hcode.symm.trans hcode')
    refine ⟨fun _ => ⟨hstore, hindex⟩, fun _ => ⟨fun hn => absurd h hn, fun _ => ?_⟩⟩
    have hsettle : ∀ (r : Reply) (ws : List Write), r = .opened (.ok (Account.openUser ⟨id.text⟩ currency ownerId now)) ∧
        ws = AccountsService.writes id c ownerId now →
        postgres.settle (postgres.view w.db ws) ws = .ok () := by
      rintro r ws ⟨-, rfl⟩
      exact settle_without_postings rfl
    rcases (open_body hchecked hbalance).serve (open_read hof w.db id now) hsettle with
      ⟨r, ws, ⟨rfl, rfl⟩, hres, hdb⟩ | ⟨e, he, -⟩
    · exact ⟨⟨_, hres, rfl, hcode⟩, hdb⟩
    · exact he.elim
  | error e =>
    -- only the owner can be held against it
    refine ⟨fun hopens => ?_, fun haccepted => ?_⟩
    · obtain ⟨⟨account, hopened, -⟩, -⟩ := hopens.2 h
      rcases (open_body_refused hchecked).serve (open_read hof w.db id now) (fun _ _ hf => hf.elim) with
        ⟨_, _, hf, -⟩ | ⟨e', rfl, hres, -⟩
      · exact hf.elim
      · cases hopened.symm.trans hres
    · obtain ⟨hstore, hindex⟩ := haccepted
      cases (Office.checkAccount_ok.2 ⟨hstore, hcode, hchart, hindex⟩).symm.trans hchecked

/-- What is not listed is refused as unknown if no object has it as a member. -/
theorem opensListed_unlisted (h : c ∉ Currency.codes) :
    OpensListed sha256 w ⟨c, ownerId⟩ id now ↔ c ∉ Currency.objectPrototype := by
  rcases Currency.of_unlisted h with ⟨hm, hof⟩ | ⟨hm, hof⟩
  · refine ⟨fun _ => hm, fun _ => ⟨fun _ => ?_, fun hc => absurd hc h⟩⟩
    have hread : postgres.read w.db (AccountsService.open_ ⟨c, ownerId⟩ id now) =
        .ok (.reply (.opened (.error .unknownCurrency))) := by
      rw [AccountsService.open_, hof]
      rfl
    rw [serve, Request.call, Engine.serve_reply hread]
    exact ⟨rfl, rfl⟩
  · refine ⟨fun hopens => ?_, fun hn => absurd hm hn⟩
    cases hchecked : w.db.office.checkAccount none ownerId id with
    | ok code => cases (Office.checkAccount_ok.1 hchecked).2.1
    | error e =>
      rcases (@open_body_refused ownerId id now w.db ⟨none, none⟩ e hchecked).serve (open_read hof w.db id now)
        (fun _ _ hf => hf.elim) with ⟨_, _, hf, -⟩ | ⟨e', rfl, hres, -⟩
      · exact hf.elim
      · cases (hopens.1 h).1.symm.trans hres

theorem opensListed_iff (haccount : w.db.accounts.get? id = none) (hbalance : w.db.balances.get? id = none) :
    OpensListed sha256 w ⟨c, ownerId⟩ id now ↔
      c ∉ Currency.objectPrototype ∧ (c ∈ Currency.codes → OwnerAccepted w.db ownerId) := by
  by_cases h : c ∈ Currency.codes
  · rw [opensListed_listed haccount hbalance h, and_iff_right (Currency.codes_not_inherited h), forall_prop_of_true h]
  · rw [opensListed_unlisted h, forall_prop_of_false h, and_true]

/-- An owner with the character U+0000 in its name. -/
example : ¬ OpensListed (Sample.digest []) (migrated Sample.worldIds 0 Sample.entrySize) ⟨"USD", "alice\x00"⟩ Sample.alice 0 :=
  fun h => absurd (((opensListed_iff (by decide) (by decide)).1 h).2 (by decide)).1 (by decide)

/-! ## Transfers -/

/-- A transfer in a currency that is not listed is refused for it. -/
def RefusesUnlisted (sha256 : String → String) (w : postgres.World) (input : TransferInput) (id : Uuid) : Prop :=
  input.currency ∉ Currency.codes →
    (serve sha256 (.transfer input id) w).1 = .ok (.transferred (.error .unknownCurrency))

theorem refusesUnlisted_iff {input : TransferInput} (h : Recorded w.db) (ha : input.Admitted) :
    RefusesUnlisted sha256 w input id ↔ input.currency ∉ Currency.objectPrototype := by
  by_cases hc : input.currency ∈ Currency.codes
  · exact ⟨fun _ => Currency.codes_not_inherited hc, fun _ hn => absurd hc hn⟩
  · rcases Currency.of_unlisted hc with ⟨hm, hof⟩ | ⟨hm, hof⟩
    · refine ⟨fun _ => hm, fun _ _ => ?_⟩
      have hcall : TransferService.transfer sha256 input id = TransferService.refuse .unknownCurrency := by
        rw [TransferService.transfer, hof]
      rw [serve, Request.call, hcall]
      rfl
    · refine ⟨fun hrefuses => ?_, fun hn => absurd hm hn⟩
      have hres := hrefuses hc
      by_cases hpass : ∃ currency amount, Currency.of input.currency = .ok currency ∧
          TransferService.parseAmount input.amount = some amount ∧ 0 < amount ∧ input.from_ ≠ input.to_
      · obtain ⟨currency, amount, hof', hamount, hpos, hne⟩ := hpass
        rcases h.transfer_serve sha256 ha hof' hamount hpos hne id with ⟨r, ws, ⟨⟨o, rfl⟩, -⟩, hok⟩ | ⟨e, he, herror⟩
        · cases hok.symm.trans hres
        · -- no exception of the transaction means an unknown currency
          have hrecover : TransferService.recover e = .ok (.transferred (.error .unknownCurrency)) := herror.symm.trans hres
          cases he with
          | badKey _ hrefused =>
            obtain ⟨error, rfl⟩ := Tables.checkKey_error hrefused
            cases hrecover
          | @refused code _ hrefuse => cases code <;> cases hrecover
          | conflict => cases hrecover
          | duplicate => cases hrecover
          | overflow => cases hrecover
      · obtain ⟨code, hcall, hcode⟩ := transfer_refused sha256 hpass id
        rw [serve, Request.call, hcall] at hres
        cases hres
        obtain ⟨e, he⟩ := hcode.1 rfl
        cases hof.symm.trans he

/-- **Which currencies are recognised.** For every text `c`: `of` recognises just what is
listed, `open` opens accounts just in what is listed, and a transfer refuses what is not
listed as unknown, in each case if and only if `c` names no member of `Object.prototype`; and
`open` if also, for a listed `c`, the database takes the owner. -/
theorem recognised_unless_inherited (c : String) :
    (Currency.Recognised c ↔ c ∉ Currency.objectPrototype) ∧
      (∀ (w : postgres.World) (ownerId : String) (id : Uuid) (now : Nat), w.db.accounts.get? id = none →
        w.db.balances.get? id = none → (OpensListed sha256 w ⟨c, ownerId⟩ id now ↔
          c ∉ Currency.objectPrototype ∧ (c ∈ Currency.codes → OwnerAccepted w.db ownerId))) ∧
      ∀ (w : postgres.World) (input : TransferInput) (id : Uuid), Reachable sha256 admitted w → input.Admitted →
        input.currency = c → (RefusesUnlisted sha256 w input id ↔ c ∉ Currency.objectPrototype) := by
  refine ⟨Currency.recognised_iff, fun w ownerId id now haccount hbalance => opensListed_iff haccount hbalance, ?_⟩
  rintro w input id hw ha rfl
  exact refusesUnlisted_iff hw.recorded ha

/-- The rule covers a listed currency, and a transfer in one that nobody knows. -/
theorem recognised_unless_inherited_usd :
    Currency.Recognised "USD" ∧
      OpensListed (Sample.digest []) (migrated Sample.worldIds 0 Sample.entrySize) ⟨"USD", "alice"⟩ Sample.alice 0 ∧
      RefusesUnlisted (Sample.digest []) (migrated Sample.worldIds 0 Sample.entrySize)
        ⟨Sample.usd.text, Sample.alice.text, "100", "XYZ", "alice", none⟩ Sample.deposit :=
  ⟨(@recognised_unless_inherited (Sample.digest []) "USD").1.2 (by decide),
    ((@recognised_unless_inherited (Sample.digest []) "USD").2.1 (migrated Sample.worldIds 0 Sample.entrySize) "alice" Sample.alice 0
      (by decide) (by decide)).2 ⟨by decide, fun _ => ⟨by decide, by decide⟩⟩,
    ((@recognised_unless_inherited (Sample.digest []) "XYZ").2.2 (migrated Sample.worldIds 0 Sample.entrySize)
      ⟨Sample.usd.text, Sample.alice.text, "100", "XYZ", "alice", none⟩ Sample.deposit
      ⟨Sample.worldIds, 0, Sample.entrySize, .refl⟩ (by decide) rfl).2 (by decide)⟩

/-- `toString` is recognised, and opening an account in it ends in the error of the database. -/
theorem not_recognised_toString :
    ¬ Currency.Recognised "toString" ∧
      ¬ OpensListed (Sample.digest []) (migrated Sample.worldIds 0 Sample.entrySize) ⟨"toString", "alice"⟩ Sample.alice 0 ∧
      ¬ RefusesUnlisted (Sample.digest []) (migrated Sample.worldIds 0 Sample.entrySize)
        ⟨Sample.usd.text, Sample.alice.text, "100", "toString", "alice", none⟩ Sample.deposit := by
  have h : Currency.of "toString" = .ok ⟨none, none⟩ ∧ "toString" ∉ Currency.codes ∧
      (serve (Sample.digest []) (.open_ ⟨"toString", "alice"⟩ Sample.alice 0) (migrated Sample.worldIds 0 Sample.entrySize)).1.toOption = none ∧
      (serve (Sample.digest []) (.transfer ⟨Sample.usd.text, Sample.alice.text, "100", "toString", "alice", none⟩
        Sample.deposit) (migrated Sample.worldIds 0 Sample.entrySize)).1.toOption = some (.transferred (.error .accountCurrencyMismatch)) := by
    decide +kernel
  obtain ⟨hof, hcodes, hopen, htransfer⟩ := h
  refine ⟨fun hr => hcodes (hr.1.1 ⟨_, hof⟩), fun hopens => ?_, fun hrefuses => ?_⟩
  · rw [(hopens.1 hcodes).1] at hopen
    cases hopen
  · rw [hrefuses hcodes] at htransfer
    cases htransfer

end MiniLedger
