import MiniLedger.Api.Authority
import MiniLedger.Dashboard.TransferForm

/-!
# From the form to the book

The form is filled from a subject's list of accounts, what it lets out goes through the
dashboard's own server under the subject's token, and the ledger serves it among others. No
check of the ledger refuses it: what comes back is the receipt, or that the funds do not
suffice, or that the key was used for something else. And the entry it makes moves what was
typed.
-/

namespace MiniLedger.Dashboard

open Bookkeeping Collections Sessions Texts Api

variable {access : AccessCore} {message : Issue → String} {sha256 : String → String} {form : TransferForm}
  {request : TransferRequest} {subject : String} {t : Tables} {moment : AccountId → Tables}

/-! ## `web/src/lib/client.ts` and `web/src/lib/bff.ts` -/

/-- The members of the body `transfer` sends. -/
def TransferRequest.members (request : TransferRequest) : List (String × Json) :=
  [("from", .string request.from_), ("to", .string request.to_), ("amount", .string request.amount),
    ("currency", .string request.currency)]

def TransferRequest.body (request : TransferRequest) : Json := .object request.members

/-- The request `proxyAuthorized` makes to the ledger; without a token it makes none and
answers 401. -/
def proxyAuthorized (token idempotencyKey : Option String) (body : Option Json) : Option HttpRequest :=
  match token.filter fun token => token ≠ "" with
  | none => none
  | some token => some ⟨some ("Bearer " ++ token), idempotencyKey.filter fun key => key ≠ "", some (body.getD (.object []))⟩

/-- An account of `GET /accounts` as the form takes it. -/
def Account.ofResponse (response : AccountResponse) : Account := ⟨response.id, response.currency.getD ""⟩

/-- The form's accounts are those of the subject as of the tables `t`. -/
def TransferForm.FilledFrom (form : TransferForm) (subject : String) (t : Tables) (moment : AccountId → Tables) : Prop :=
  ∃ responses, AccountsController.list subject t moment = .ok responses ∧ form.accounts = responses.map Account.ofResponse

/-- The input of the use case for what is sent under the subject's token. -/
def TransferRequest.input (request : TransferRequest) (subject : String) : TransferInput :=
  ⟨request.from_, request.to_, request.amount, request.currency, subject, request.idempotencyKey⟩

/-! ## What the form lets out -/

/-- The accounts of a request are the subject's to see, two, and of its currency. -/
structure Chosen (t : Tables) (subject : String) (request : TransferRequest) (source target : Uuid) (from_ to_ : AccountRow) :
    Prop where
  source_text : request.from_ = source.text
  target_text : request.to_ = target.text
  ne : source ≠ target
  source_row : t.shown subject source = some from_
  target_row : t.shown subject target = some to_
  source_currency : from_.currency = request.currency
  target_currency : to_.currency = request.currency

/-- The currency of a request is one of the ledger's. -/
theorem Chosen.currency {source target : Uuid} {from_ to_ : AccountRow} (ht : Recorded t)
    (h : Chosen t subject request source target from_ to_) : request.currency ∈ Currency.codes := by
  rw [← h.source_currency]
  exact (ht.account _ _ (Tables.shown_eq_some.1 h.source_row).1).1

/-- Every account of the form is one the subject is shown. -/
theorem TransferForm.FilledFrom.shown (ht : Recorded t) (h : form.FilledFrom subject t moment) {account : Account}
    (hmem : account ∈ form.accounts) : ∃ u row, t.shown subject u = some row ∧ account = ⟨u.text, row.currency⟩ := by
  obtain ⟨responses, hlist, haccounts⟩ := h
  rw [list_eq ht] at hlist
  cases hbind : bindText (some subject) with
  | error e =>
    rw [hbind] at hlist
    cases hlist
  | ok _ =>
  rw [hbind] at hlist
  cases hlist
  rw [haccounts, List.map_map] at hmem
  obtain ⟨e, he, rfl⟩ := List.mem_map.1 hmem
  exact ⟨e.1, e.2, mem_visibleRows.1 he, rfl⟩

theorem effectiveTo_mem (h : form.effectiveTo ≠ "") : ∃ account ∈ form.toOptions, account.id = form.effectiveTo := by
  unfold TransferForm.effectiveTo at h ⊢
  split
  · rename_i hany
    obtain ⟨account, hmem, hid⟩ := List.any_eq_true.1 hany
    exact ⟨account, hmem, beq_iff_eq.1 hid⟩
  · rename_i hany
    rw [if_neg hany] at h
    cases hhead : form.toOptions.head? with
    | none =>
      rw [hhead] at h
      exact absurd rfl h
    | some account => exact ⟨account, List.mem_of_head? hhead, rfl⟩

theorem currency_mem (h : form.currency ≠ "") :
    ∃ account ∈ form.accounts, account.id = form.from_ ∧ account.currency = form.currency := by
  unfold TransferForm.currency at h ⊢
  cases hfind : form.accounts.find? fun account => account.id == form.from_ with
  | none =>
    rw [hfind] at h
    exact absurd rfl h
  | some account => exact ⟨account, List.mem_of_find?_eq_some hfind, beq_iff_eq.1 (List.find?_some hfind :), rfl⟩

theorem submit_chosen (ht : Recorded t) (hfilled : form.FilledFrom subject t moment) (h : form.submit = some request) :
    ∃ source target from_ to_, Chosen t subject request source target from_ to_ := by
  obtain ⟨hcan, hfrom, hto, hcurrency, hminor⟩ := TransferForm.submit_eq_some h
  obtain ⟨-, htarget, hne, -⟩ := TransferForm.canSubmit_iff.1 hcan
  have hknown : form.currency ≠ "" := by
    intro hnone
    rw [TransferForm.minorUnits, if_neg (not_not_intro hnone)] at hminor
    cases hminor
  obtain ⟨a, ha, haid, hacurrency⟩ := currency_mem hknown
  obtain ⟨b, hb, hbid⟩ := effectiveTo_mem htarget
  obtain ⟨hb, hbcurrency⟩ := List.mem_filter.1 hb
  obtain ⟨-, hbcurrency⟩ := of_decide_eq_true hbcurrency
  obtain ⟨source, from_, hsource, rfl⟩ := hfilled.shown ht ha
  obtain ⟨target, to_, htarget, rfl⟩ := hfilled.shown ht hb
  refine ⟨source, target, from_, to_, ?_⟩
  exact
    { source_text := hfrom.trans haid.symm
      target_text := hto.trans hbid.symm
      ne := fun he => hne (haid.symm.trans ((congrArg Uuid.text he).trans hbid))
      source_row := hsource
      target_row := htarget
      source_currency := hacurrency.trans hcurrency.symm
      target_currency := hbcurrency.trans hcurrency.symm }

/-- A key the form sends is not empty. -/
theorem submit_key (h : form.submit = some request) :
    (request.idempotencyKey.filter fun key => key ≠ "") = request.idempotencyKey := by
  unfold TransferForm.submit at h
  split at h
  · cases h
  · split at h
    · cases h
      show Option.filter _ (if _ then some _ else none) = _
      split
      · rename_i hkey
        rw [Option.filter_some, if_pos (decide_eq_true hkey)]
      · rfl
    · cases h

/-! ## Past the boundary -/

theorem utf16Length_codes : ∀ code ∈ Currency.codes, 1 ≤ utf16Length code ∧ utf16Length code ≤ 8 := by decide

theorem bears_canActivate {http : HttpRequest} (h : Bears access http subject) :
    ∃ principal, AccessTokenGuard.canActivate access http = .ok principal ∧ principal.subject = subject := by
  obtain ⟨token, claims, htoken, hclaims, hsub, hne⟩ := h
  refine ⟨⟨subject, claims.org, claims.sid, claims.aal⟩, ?_, rfl⟩
  simp only [AccessTokenGuard.canActivate, htoken, hclaims, hsub, Option.filter_some, decide_eq_true hne, if_true]

/-- What the form sends passes the schema. -/
theorem transferSchema_body {source target : Uuid} {from_ to_ : AccountRow} (ht : Recorded t)
    (h : Chosen t subject request source target from_ to_) (hamount : isDigits request.amount = true) :
    transferSchema (some request.body) = .ok ⟨request.from_, request.to_, request.amount, request.currency⟩ := by
  obtain ⟨hmin, hmax⟩ := utf16Length_codes _ (h.currency ht)
  have hfrom : isUuid request.from_ = true := h.source_text ▸ source.isUuid_text
  have hto : isUuid request.to_ = true := h.target_text ▸ target.isUuid_text
  have hfields : ∀ key checks, (key, checks) ∈ [("from", [Check.uuid]), ("to", [.uuid]), ("amount", [.digits]),
      ("currency", [.min 1, .max 8])] → ∃ text, member request.members key = some (.string text) ∧
        ∀ check ∈ checks, check.passes text = true := by
    simp only [List.mem_cons, List.not_mem_nil, or_false, Prod.mk.injEq]
    rintro key checks (⟨rfl, rfl⟩ | ⟨rfl, rfl⟩ | ⟨rfl, rfl⟩ | ⟨rfl, rfl⟩)
    · exact ⟨_, rfl, by simpa [Check.passes] using hfrom⟩
    · exact ⟨_, rfl, by simpa [Check.passes] using hto⟩
    · exact ⟨_, rfl, by simpa [Check.passes] using hamount⟩
    · exact ⟨_, rfl, by simpa [Check.passes] using ⟨hmin, hmax⟩⟩
  rw [transferSchema, TransferRequest.body, safeParse_ok.2 ⟨request.members, rfl, hfields, rfl⟩]
  rfl

/-- A request of the form on its way: under the subject's token, with the transfer granted,
and the id the use case will draw. -/
structure Submission (access : AccessCore) where
  form : TransferForm
  request : TransferRequest
  subject : String
  token : Option String
  http : HttpRequest
  id : Uuid
  now : Nat
  submitted : form.submit = some request
  proxied : proxyAuthorized token request.idempotencyKey (some request.body) = some http
  bears : Bears access http subject
  granted : access.check http Route.createTransfer.permission = none

variable {s : Submission access}

theorem Submission.carries (s : Submission access) :
    s.http.body = some s.request.body ∧ s.http.idempotencyKey = s.request.idempotencyKey := by
  have h := s.proxied
  unfold proxyAuthorized at h
  split at h
  · cases h
  · injection h with h
    rw [← h]
    exact ⟨rfl, submit_key s.submitted⟩

/-- The amount of a request is the typed one in minor units of its currency. -/
theorem submit_amount (hcode : request.currency ∈ Currency.codes) (h : form.submit = some request) :
    ∃ currency k whole fraction amount, Currency.of request.currency = .ok currency ∧ currency.code = some request.currency ∧
      currency.minorUnitScale = some k ∧ DecimalText (trim form.amount.toList) whole fraction ∧
      isDigits request.amount = true ∧ TransferService.parseAmount request.amount = some amount ∧ 0 < amount ∧
      (amount : ℚ) = decimalValue whole fraction * 10 ^ k := by
  obtain ⟨currency, hof, hown⟩ := Currency.of_supported hcode
  have hscale := of_scaleOf hof hown
  obtain ⟨-, whole, fraction, amount, htext, hdigits, hparse, hpos, hvalue⟩ := TransferForm.submit_passes h hof hown hscale
  exact ⟨currency, _, whole, fraction, amount, hof, hown, hscale, htext, hdigits, hparse, hpos, hvalue⟩

/-- **The boundary lets the form through.** -/
theorem Submission.admitted (ht : Recorded t) (hfilled : s.form.FilledFrom s.subject t moment) :
    accept access message .createTransfer s.http s.id s.now = .ok (.transfer (s.request.input s.subject) s.id) := by
  obtain ⟨source, target, from_, to_, hchosen⟩ := submit_chosen ht hfilled s.submitted
  obtain ⟨_, _, _, _, _, -, -, -, -, hdigits, -⟩ := submit_amount (hchosen.currency ht) s.submitted
  obtain ⟨principal, hprincipal, hsubject⟩ := bears_canActivate s.bears
  obtain ⟨hbody, hkey⟩ := s.carries
  have hpermission : requirePermission access s.http Route.createTransfer.permission = .ok () := by
    rw [requirePermission, s.granted]
  have hkept : (s.http.idempotencyKey.filter fun key => key ≠ "") = s.request.idempotencyKey := by
    rw [hkey, submit_key s.submitted]
  simp only [accept, bind, Except.bind, hprincipal, hpermission, hbody, transferSchema_body ht hchosen hdigits, transform,
    Except.mapError, hkept, hsubject]
  rfl

/-! ## In the office -/

section

variable {o : Office} {input : TransferInput} {id source target : Uuid} {currency : Currency} {amount : Nat}
  {from_ to_ : Terms (Option String) String}

end

/-! ## Among others -/

section

variable {ι : Type} [DecidableEq ι] [Fintype ι] {requests : ι → Request} {w : postgres.World} {as before : List (Act postgres ι)}
  {c d : Config postgres ι Reply} {i : ι} {x : Except Failure Reply}

omit [DecidableEq ι] [Fintype ι] in
/-- The request of a form filled on a ledger in use is let through. -/
theorem Submission.accepted (ht : Recorded t) (hfilled : s.form.FilledFrom s.subject t moment)
    (hrequest : requests i = .transfer (s.request.input s.subject) s.id) :
    accept access message .createTransfer s.http s.id s.now = .ok (requests i) :=
  (s.admitted ht hfilled).trans (congrArg Except.ok hrequest.symm)

omit [DecidableEq ι] [Fintype ι] in
theorem Submission.proper (ht : Recorded t) (hfilled : s.form.FilledFrom s.subject t moment)
    (hrequest : requests i = .transfer (s.request.input s.subject) s.id) {t' : Tables} :
    MiniLedger.proper t' (requests i) := by
  have haccept : accept access (fun _ => "") .createTransfer s.http s.id s.now = .ok (requests i) :=
    s.accepted ht hfilled hrequest
  obtain ⟨source, target, from_, to_, hchosen⟩ := submit_chosen ht hfilled s.submitted
  obtain ⟨_, -, -, hpasses⟩ := accept_ok haccept
  refine ⟨hpasses.admitted, ?_⟩
  rw [hrequest]
  show Canonical s.request.from_ ∧ Canonical s.request.to_
  rw [hchosen.source_text, hchosen.target_text]
  exact ⟨source.canonical_text, target.canonical_text⟩

omit [Fintype ι] in
/-- With the others' requests all that run are proper. -/
theorem all_proper {t' : Tables} (hown : MiniLedger.proper t' (requests i))
    (hothers : ∀ j, j ≠ i → MiniLedger.proper t' (requests j)) (j : ι) : MiniLedger.proper t' (requests j) := by
  by_cases hj : j = i
  · exact hj ▸ hown
  · exact hothers j hj

/-- **What is typed is what moves.** Whatever the interleaving, the entries made since are
those of committed requests in commit order, one each at most. The form's request makes one
at most, and that one takes the typed amount, in minor units, from the account chosen to the
one shown beside it. -/
theorem submission_moves (hw : Reachable sha256 MiniLedger.proper w)
    (hothers : ∀ j, j ≠ i → MiniLedger.proper w.db (requests j))
    (hrequest : requests i = .transfer (s.request.input s.subject) s.id)
    (hd : Reaches (Config.start w fun i => (requests i).call sha256) d)
    (hfilled : s.form.FilledFrom s.subject d.db moment)
    (h : Reaches (Config.start w fun i => (requests i).call sha256) c) :
    ∃ made : List (Commit postgres ι Reply × LedgerEntry), (made.map Prod.fst).Sublist c.log ∧
      c.db.book.entries = w.db.book.entries ++ made.map Prod.snd ∧ (made.filter fun m => m.1.session = i).length ≤ 1 ∧
      ∀ m ∈ made, m.1.session = i → ∃ (source target : Uuid) (k amount : ℕ) (whole fraction : List Char),
        s.request.from_ = source.text ∧ s.request.to_ = target.text ∧
        (Currency.of s.request.currency).map Currency.minorUnitScale = .ok (some k) ∧
        DecimalText (trim s.form.amount.toList) whole fraction ∧ (amount : ℚ) = decimalValue whole fraction * 10 ^ k ∧
        TransferService.parseAmount s.request.amount = some amount ∧
        m.2 = ⟨s.id, some s.request.currency, [⟨source, -amount⟩, ⟨target, amount⟩], none⟩ := by
  have hadmitted : Reachable sha256 MiniLedger.admitted w := hw.mono fun _ _ h => h.1
  have hrecorded : Recorded d.db := reaches_invariant hadmitted hd hadmitted.recorded fun hi hc => hi.commit hc
  have hp := all_proper (s.proper hrecorded hfilled hrequest) hothers
  obtain ⟨source, target, from_, to_, hchosen⟩ := submit_chosen hrecorded hfilled s.submitted
  obtain ⟨currency, k, whole, fraction, amount, hof, hcode, hscale, htext, -, hparse, hpos, hvalue⟩ :=
    submit_amount (hchosen.currency hrecorded) s.submitted
  obtain ⟨made, hlog, hentries, hmade⟩ := reaches_accounted hw hp h
  obtain ⟨-, hnodup⟩ := h.outcome fun i => @request_otherwise sha256 (requests i)
  have honce : (made.filter fun m => m.1.session = i).length ≤ 1 := by
    refine length_filter_le_one ?_ i
    have hsessions := (hlog.map Commit.session).nodup hnodup
    rwa [List.map_map] at hsessions
  refine ⟨made, hlog, hentries, honce, fun m hm hi => ?_⟩
  have hentitled := hmade m hm
  rw [hi, hrequest] at hentitled
  have hscale' : (Currency.of s.request.currency).map Currency.minorUnitScale = .ok (some k) := by
    rw [hof]
    exact congrArg Except.ok hscale
  refine ⟨source, target, k, amount, whole, fraction, hchosen.source_text, hchosen.target_text, hscale', htext, hvalue,
    hparse, ?_⟩
  generalize m.2 = made at hentitled
  cases hentitled with
  | @transfer _ _ source' target' currency' amount' _ hs ht hof' hparse' _ _ _ =>
    have hsource : Uuid.parse? s.request.from_ = some source := hchosen.source_text ▸ source.parse?_text
    have htarget : Uuid.parse? s.request.to_ = some target := hchosen.target_text ▸ target.parse?_text
    obtain rfl : source = source' := Option.some.inj (hsource.symm.trans hs)
    obtain rfl : target = target' := Option.some.inj (htarget.symm.trans ht)
    obtain rfl : currency = currency' := Except.ok.inj (hof.symm.trans hof')
    obtain rfl : amount = amount' := Option.some.inj (hparse.symm.trans hparse')
    rw [transferEntry, hcode]

end

end MiniLedger.Dashboard

/-! ## A run on fixed inputs -/

namespace MiniLedger

open Bookkeeping Collections Sessions Api Dashboard

namespace Sample

/-- Alice types an amount beside the world's account and her own. -/
def aliceForm : TransferForm where
  accounts := (AccountsRepository.visibleRows emptyAccounts.db "alice").map fun e => ⟨e.1.text, e.2.currency⟩
  from_ := usd.text
  to_ := alice.text
  amount := " 1.00"
  idempotencyKey := ""
  saving := false

def aliceRequest : TransferRequest := ⟨usd.text, alice.text, "100", "USD", none⟩

def aliceSubmission : Submission openAccess where
  form := aliceForm
  request := aliceRequest
  subject := "alice"
  token := some "alice-"
  http := postTransfer "alice-" usd.text alice.text "100"
  id := deposit
  now := 0
  submitted := by decide +kernel
  proxied := rfl
  bears := ⟨"alice-", ⟨some "alice", none, none, none⟩, by decide, rfl, rfl, by decide⟩
  granted := rfl

theorem aliceForm_filled : aliceForm.FilledFrom "alice" emptyAccounts.db fun _ => emptyAccounts.db := by
  have hrecorded : Recorded emptyAccounts.db := Reachable.recorded deposits_proper.1
  refine ⟨_, list_eq hrecorded _, ?_⟩
  rw [List.map_map]
  rfl

end Sample

namespace Dashboard

/-- Of the two entries made, the one of Alice's request. -/
theorem submission_moves_deposits : ∃ (c : Config postgres (Fin 2) Reply) (made : List (Commit postgres (Fin 2) Reply × LedgerEntry)),
    (Config.start Sample.emptyAccounts fun i =>
      (Sample.twoDeposits i).call (Sample.digest Sample.twoDepositsDigests)).play Sample.overlapping = some c ∧
    c.db.book.entries = made.map Prod.snd ∧ made.map (fun m => m.2.id) = [Sample.deposit, Sample.second] ∧
    (made.filter fun m => m.1.session = 0).length ≤ 1 ∧
    ∀ m ∈ made, m.1.session = 0 →
      m.2 = ⟨Sample.deposit, some "USD", [⟨Sample.usd, -100⟩, ⟨Sample.alice, 100⟩], none⟩ := by
  have h : ((Config.start Sample.emptyAccounts fun i =>
      (Sample.twoDeposits i).call (Sample.digest Sample.twoDepositsDigests)).play Sample.overlapping).any
      (fun c => decide (c.db.book.entries.map Entry.id = [Sample.deposit, Sample.second])) = true := by decide +kernel
  obtain ⟨c, hplay, hids⟩ := (Option.any_eq_true _ _).1 h
  obtain ⟨made, hsub, hentries, honce, hmade⟩ := submission_moves (s := Sample.aliceSubmission) (i := 0)
    Sample.deposits_proper.1 (fun j _ => Sample.deposits_proper.2 j) rfl (.refl _)
    Sample.aliceForm_filled (Reaches.of_play (.refl _) hplay)
  have hentries : c.db.book.entries = made.map Prod.snd := hentries
  refine ⟨c, made, hplay, hentries, ?_, honce, fun m hm hi => ?_⟩
  · rw [← of_decide_eq_true hids, hentries, List.map_map]
    rfl
  · obtain ⟨source, target, k, amount, _, _, hfrom, hto, -, -, -, hamount, hentry⟩ := hmade m hm hi
    obtain rfl : Sample.usd = source := Uuid.ext hfrom
    obtain rfl : Sample.alice = target := Uuid.ext hto
    obtain rfl : 100 = amount := Option.some.inj ((by decide : TransferService.parseAmount "100" = some 100).symm.trans hamount)
    exact hentry

end Dashboard

end MiniLedger
