import MiniLedger.Api.Boundary

/-!
# Who moves money

Every request that reaches a use case bore a token that verified, was granted the capability
of its route, and has a body its schema accepts. Put on top of the runs of the ledger, that
says for whole interleavings of HTTP requests whose tokens can move the money of whom.
-/

namespace MiniLedger.Api

open Bookkeeping Collections Sessions

variable {access : AccessCore} {message : Issue → String} {sha256 : String → String}

/-! ## What the schemas accept -/

theorem issuesOf_eq_nil {checks : List Check} {value : Option Json} : issuesOf checks value = [] ↔
    ∃ text, value = some (.string text) ∧ ∀ check ∈ checks, check.passes text = true := by
  unfold issuesOf
  split
  · rename_i text
    simp [List.filter_eq_nil_iff]
  · rename_i hother
    constructor
    · intro h
      cases h
    · rintro ⟨text, rfl, -⟩
      exact absurd rfl (hother text)

/-- What a shape accepts: an object whose fields are strings that pass every check. -/
theorem safeParse_ok {shape : List (String × List Check)} {body : Option Json} {field : String → String} :
    safeParse shape body = .ok field ↔ ∃ members, body = some (.object members) ∧
      (∀ key checks, (key, checks) ∈ shape → ∃ text, member members key = some (.string text) ∧
        ∀ check ∈ checks, check.passes text = true) ∧
      field = fun key => textOf (member members key) := by
  unfold safeParse
  split
  · rename_i members
    simp only [List.flatMap_eq_nil_iff]
    constructor
    · intro h
      split at h
      · rename_i hissues
        cases h
        exact ⟨members, rfl, fun key checks hmem => issuesOf_eq_nil.1 (hissues (key, checks) hmem), rfl⟩
      · cases h
    · rintro ⟨members', ⟨⟩, hfields, rfl⟩
      have hnone : ∀ f ∈ shape, issuesOf f.2 (member members f.1) = [] := fun f hf =>
        issuesOf_eq_nil.2 (hfields f.1 f.2 hf)
      exact if_pos hnone
  · rename_i hother
    constructor
    · intro h
      cases h
    · rintro ⟨members, rfl, -⟩
      exact absurd rfl (hother members)

/-- A field of an accepted body passes its checks. -/
theorem safeParse_field {shape : List (String × List Check)} {body : Option Json} {field : String → String}
    (h : safeParse shape body = .ok field) {key : String} {checks : List Check} (hmem : (key, checks) ∈ shape) :
    ∀ check ∈ checks, check.passes (field key) = true := by
  obtain ⟨members, -, hfields, rfl⟩ := safeParse_ok.1 h
  obtain ⟨text, htext, hpasses⟩ := hfields key checks hmem
  show ∀ check ∈ checks, check.passes (textOf (member members key)) = true
  rw [htext]
  exact hpasses

theorem transferSchema_ok {body : Option Json} {dto : TransferDto} (h : transferSchema body = .ok dto) :
    isUuid dto.from_ = true ∧ isUuid dto.to_ = true ∧ isDigits dto.amount = true ∧
      1 ≤ utf16Length dto.currency ∧ utf16Length dto.currency ≤ 8 := by
  unfold transferSchema at h
  cases hparse : safeParse [("from", [.uuid]), ("to", [.uuid]), ("amount", [.digits]), ("currency", [.min 1, .max 8])] body with
  | error issues =>
    rw [hparse] at h
    cases h
  | ok field =>
    rw [hparse] at h
    cases h
    have passes := fun key checks hmem => @safeParse_field _ _ _ hparse key checks hmem
    have hcurrency := passes "currency" [.min 1, .max 8] (by simp)
    refine ⟨passes "from" [.uuid] (by simp) .uuid (by simp), passes "to" [.uuid] (by simp) .uuid (by simp),
      passes "amount" [.digits] (by simp) .digits (by simp), ?_, ?_⟩
    · exact of_decide_eq_true (hcurrency (.min 1) (by simp))
    · exact of_decide_eq_true (hcurrency (.max 8) (by simp))

/-! ## What is let through -/

/-- The subject of the token a request bears. -/
def Bears (access : AccessCore) (request : HttpRequest) (subject : String) : Prop :=
  ∃ token claims, AccessTokenGuard.bearer request.authorization = some token ∧ access.verify token = some claims ∧
    claims.sub = some subject ∧ subject ≠ ""

theorem canActivate_ok {request : HttpRequest} {principal : Principal}
    (h : AccessTokenGuard.canActivate access request = .ok principal) : Bears access request principal.subject := by
  unfold AccessTokenGuard.canActivate at h
  split at h
  · cases h
  · rename_i token htoken
    split at h
    · cases h
    · rename_i claims hclaims
      split at h
      · cases h
      · rename_i subject hsubject
        cases h
        obtain ⟨hsub, hne⟩ := Option.filter_eq_some_iff.1 hsubject
        exact ⟨token, claims, htoken, hclaims, hsub, of_decide_eq_true hne⟩

/-- What the handler of a route passes to the use case, for a subject. -/
inductive Passes (request : HttpRequest) (subject : String) (id : Uuid) (now : Nat) : Route → Request → Prop where
  | openAccount {dto : OpenAccountDto} : openAccountSchema request.body = .ok dto →
      Passes request subject id now .openAccount (.open_ ⟨dto.currency, subject⟩ id now)
  | createTransfer {dto : TransferDto} : transferSchema request.body = .ok dto →
      Passes request subject id now .createTransfer
        (.transfer ⟨dto.from_, dto.to_, dto.amount, dto.currency, subject, request.idempotencyKey.filter fun key => key ≠ ""⟩ id)
  | createReversal {dto : ReversalDto} : reversalSchema request.body = .ok dto →
      Passes request subject id now .createReversal (.reverse dto.transactionId id)

theorem transform_ok {α : Type} {parsed : Except (List Issue) α} {a : α} (h : transform message parsed = .ok a) :
    parsed = .ok a := by
  cases parsed with
  | error issues => cases h
  | ok b =>
    cases h
    rfl

theorem bind_ok {α β : Type} {x : Except ProblemDetails α} {f : α → Except ProblemDetails β} {b : β} :
    (x >>= f) = .ok b ↔ ∃ a, x = .ok a ∧ f a = .ok b := by
  cases x with
  | error e => simp [bind, Except.bind]
  | ok a => simp [bind, Except.bind]

/-- Nothing gets past the guards and the pipe otherwise. -/
theorem accept_ok {route : Route} {http : HttpRequest} {id : Uuid} {now : Nat} {request : Request}
    (h : accept access message route http id now = .ok request) :
    ∃ subject, Bears access http subject ∧ access.check http route.permission = none ∧
      Passes http subject id now route request := by
  rw [accept, bind_ok] at h
  obtain ⟨principal, hprincipal, h⟩ := h
  rw [bind_ok] at h
  obtain ⟨_, hpermission, h⟩ := h
  have hcheck : access.check http route.permission = none := by
    unfold requirePermission at hpermission
    split at hpermission
    · cases hpermission
    · assumption
  refine ⟨principal.subject, canActivate_ok hprincipal, hcheck, ?_⟩
  cases route with
  | openAccount =>
    obtain ⟨dto, hdto, h⟩ := bind_ok.1 h
    cases h
    exact .openAccount (transform_ok hdto)
  | createTransfer =>
    obtain ⟨dto, hdto, h⟩ := bind_ok.1 h
    cases h
    exact .createTransfer (transform_ok hdto)
  | createReversal =>
    obtain ⟨dto, hdto, h⟩ := bind_ok.1 h
    cases h
    exact .createReversal (transform_ok hdto)

theorem Passes.admitted {http : HttpRequest} {subject : String} {id : Uuid} {now : Nat} {route : Route} {request : Request}
    (h : Passes http subject id now route request) : request.Admitted := by
  cases h with
  | openAccount => exact trivial
  | createReversal => exact trivial
  | createTransfer hdto => exact transferSchema_ok hdto

/-! ## Runs of HTTP requests -/

/-- The requests a server is working on: those let through, each as its handler passes it on. -/
structure Traffic (access : AccessCore) (message : Issue → String) (ι : Type) where
  http : ι → HttpRequest
  route : ι → Route
  id : ι → Uuid
  now : ι → Nat
  request : ι → Request
  admitted : ∀ i, accept access message (route i) (http i) (id i) (now i) = .ok (request i)
  /-- ids are sent as the service prints them -/
  canonical : ∀ i, (request i).CanonicalIds

/-- The request was allowed to have the entry made: its token verified, its route was
granted, and it is a transfer from an account the subject may draw on or the reversal of an
entry of the book. -/
def Authorised (access : AccessCore) (b : LedgerBook) (route : Route) (http : HttpRequest) (e : LedgerEntry) : Prop :=
  ∃ subject, Bears access http subject ∧ access.check http route.permission = none ∧
    ((route = .createTransfer ∧ ∃ dto source target currency amount terms, transferSchema http.body = .ok dto ∧
        Uuid.parse? dto.from_ = some source ∧ Uuid.parse? dto.to_ = some target ∧ Currency.of dto.currency = .ok currency ∧
        TransferService.parseAmount dto.amount = some amount ∧ e = transferEntry e.id source target amount currency ∧
        b.chart source = some terms ∧ terms.draws subject = true) ∨
      (route = .createReversal ∧ ∃ dto o, reversalSchema http.body = .ok dto ∧ Uuid.parse? dto.transactionId = some o.id ∧
        o ∈ b.entries ∧ e = o.reverse e.id))

theorem authorised_of_entitled {b : LedgerBook} {route : Route} {http : HttpRequest} {id : Uuid} {now : Nat} {request : Request}
    {e : LedgerEntry} (h : accept access message route http id now = .ok request) (he : Entitled b request e) :
    Authorised access b route http e := by
  obtain ⟨subject, hbears, hcheck, hpasses⟩ := accept_ok h
  refine ⟨subject, hbears, hcheck, ?_⟩
  cases hpasses with
  | openAccount => cases he
  | createTransfer hdto =>
    cases he with
    | transfer hs ht hof hamount _ hterms hdraws =>
      exact .inl ⟨rfl, _, _, _, _, _, _, hdto, hs, ht, hof, hamount, rfl, hterms, hdraws⟩
  | createReversal hdto =>
    cases he with
    | reverse hp hmem => exact .inr ⟨rfl, _, _, hdto, hp, hmem, rfl⟩

section

variable {ι : Type} [DecidableEq ι] [Fintype ι] {traffic : Traffic access message ι} {w : postgres.World}
  {c : Config postgres ι Reply} {u : Uuid}

omit [DecidableEq ι] [Fintype ι] in
theorem Traffic.proper (traffic : Traffic access message ι) (t : Tables) (i : ι) : MiniLedger.proper t (traffic.request i) := by
  obtain ⟨_, -, -, hpasses⟩ := accept_ok (traffic.admitted i)
  exact ⟨hpasses.admitted, traffic.canonical i⟩

/-- **Only authorised requests move money.** Whatever the interleaving, the entries made
since are those of committed requests in commit order, one each at most, and each of them
was allowed to have its entry made. -/
theorem run_authorised (hw : Reachable sha256 MiniLedger.proper w)
    (h : Reaches (Config.start w fun i => (traffic.request i).call sha256) c) :
    ∃ made : List (Commit postgres ι Reply × LedgerEntry), (made.map Prod.fst).Sublist c.log ∧
      c.db.book.entries = w.db.book.entries ++ made.map Prod.snd ∧
      ∀ m ∈ made, Authorised access c.db.book (traffic.route m.1.session) (traffic.http m.1.session) m.2 := by
  obtain ⟨made, hlog, hentries, hmade⟩ := reaches_accounted hw (traffic.proper _) h
  exact ⟨made, hlog, hentries, fun m hm => authorised_of_entitled (traffic.admitted _) (hmade m hm)⟩

/-- **Nobody else's token takes from an account.** While requests none of whose tokens is
the owner's run and commit, and no reversal is granted, the stored balance of a user's
account does not fall. -/
theorem run_untouchable (hw : Reachable sha256 MiniLedger.proper w)
    (h : Reaches (Config.start w fun i => (traffic.request i).call sha256) c) {row : AccountRow} {owner : String}
    (hrow : w.db.accounts.get? u = some row) (htype : row.type = .user) (howner : row.ownerId = some owner)
    (hothers : ∀ i, ¬ Bears access (traffic.http i) owner)
    (hdenied : ∀ i, traffic.route i = .createReversal → access.check (traffic.http i) "ledger.reverse" ≠ none) :
    ∃ s s', w.db.balances.get? u = some s ∧ c.db.balances.get? u = some s' ∧ s.balance ≤ s'.balance := by
  obtain ⟨hchart, s, s', hs, hs', hbefore, hafter⟩ := reaches_stored hw (traffic.proper _) h hrow
  refine ⟨s, s', hs, hs', ?_⟩
  rw [hbefore, hafter]
  refine (reaches_accounted hw (traffic.proper _) h).gains hchart (AccountRow.draws_owner htype howner) fun e _ htakes => ?_
  obtain ⟨subject, hbears, hcheck, hpasses⟩ := accept_ok (traffic.admitted e.session)
  generalize traffic.request e.session = request at hpasses htakes
  generalize hroute : traffic.route e.session = route at hpasses hcheck
  cases hpasses with
  | openAccount => exact htakes
  | createTransfer =>
    obtain ⟨hsubject, -⟩ := htakes
    obtain rfl : subject = owner := hsubject
    exact hothers e.session hbears
  | createReversal => exact hdenied e.session hroute hcheck

end

end MiniLedger.Api

/-! ## Runs on fixed inputs -/

namespace MiniLedger

open Bookkeeping Sessions Api

namespace Sample

/-- A token is the name of its subject and a dash; everything is granted. -/
def openAccess : AccessCore where
  verify token :=
    if token = "alice-" then some ⟨some "alice", none, none, none⟩
    else if token = "bob-" then some ⟨some "bob", none, none, none⟩
    else none
  check _ _ := none

def noText (_ : Issue) : String := ""

def postTransfer (token from_ to_ amount : String) : HttpRequest where
  authorization := some ("Bearer " ++ token)
  idempotencyKey := none
  body := some (.object [("from", .string from_), ("to", .string to_), ("amount", .string amount), ("currency", .string "USD")])

/-- Alice and Bob fund their accounts, each with a token of its own. -/
def depositing : Traffic openAccess noText (Fin 2) where
  http
    | 0 => postTransfer "alice-" usd.text alice.text "100"
    | 1 => postTransfer "bob-" usd.text bob.text "50"
  route _ := .createTransfer
  id
    | 0 => deposit
    | 1 => second
  now _ := 0
  request := twoDeposits
  admitted
    | 0 => by rfl
    | 1 => by rfl
  canonical i := (deposits_proper.2 i).2

def giftDigests : List (String × String) :=
  ("|".intercalate ["bob", usd.text, alice.text, "100", "USD"],
      "2fd56cc2b1683e11b3e0ac69a72946db4e3fd457d2b53bed513b3a9d6db58233") :: fundingDigests

def beforeGifts : postgres.World := after giftDigests [openAlice, openBob]

/-- Bob funds both accounts. -/
def gifts : Fin 2 → Request
  | 0 => .transfer (pay usd.text alice.text "100" "bob") deposit
  | 1 => .transfer (pay usd.text bob.text "50" "bob") second

def giving : Traffic openAccess noText (Fin 2) where
  http
    | 0 => postTransfer "bob-" usd.text alice.text "100"
    | 1 => postTransfer "bob-" usd.text bob.text "50"
  route _ := .createTransfer
  id
    | 0 => deposit
    | 1 => second
  now _ := 0
  request := gifts
  admitted
    | 0 => by rfl
    | 1 => by rfl
  canonical
    | 0 => by decide
    | 1 => by decide

end Sample

namespace Api

/-- Two deposits at once. -/
theorem run_authorised_deposits : ∃ c : Config postgres (Fin 2) Reply,
    (Config.start Sample.emptyAccounts fun i =>
      (Sample.depositing.request i).call (Sample.digest Sample.twoDepositsDigests)).play Sample.overlapping = some c ∧
    ∃ made : List (Commit postgres (Fin 2) Reply × LedgerEntry), (made.map Prod.fst).Sublist c.log ∧
      c.db.book.entries = Sample.emptyAccounts.db.book.entries ++ made.map Prod.snd ∧
      ∀ m ∈ made, Authorised Sample.openAccess c.db.book (Sample.depositing.route m.1.session)
        (Sample.depositing.http m.1.session) m.2 := by
  obtain ⟨c, hplay, -⟩ := Sample.overlapping_play
  exact ⟨c, hplay, run_authorised Sample.deposits_proper.1 (Reaches.of_play (.refl _) hplay)⟩

/-- A transfer to Alice, committed while neither request bears her token. -/
theorem run_untouchable_gifts : ∃ c : Config postgres (Fin 2) Reply,
    (Config.start Sample.beforeGifts fun i =>
      (Sample.giving.request i).call (Sample.digest Sample.giftDigests)).play (List.replicate 12 (.advance Sample.one)) = some c ∧
    c.log.length = 1 ∧ ∃ s s', Sample.beforeGifts.db.balances.get? Sample.alice = some s ∧
      c.db.balances.get? Sample.alice = some s' ∧ s.balance ≤ s'.balance := by
  have h : ((Config.start Sample.beforeGifts fun i =>
      (Sample.giving.request i).call (Sample.digest Sample.giftDigests)).play
      (List.replicate 12 (.advance Sample.one))).any (fun c => decide (c.log.length = 1)) = true := by decide +kernel
  obtain ⟨c, hplay, hlog⟩ := (Option.any_eq_true _ _).1 h
  have hrow : Sample.beforeGifts.db.accounts.get? Sample.alice = some ⟨.user, "USD", some 0, none, some "alice", 0⟩ := by
    decide +kernel
  have hothers : ∀ i, ¬ Bears Sample.openAccess (Sample.giving.http i) "alice" := by
    rintro i ⟨token, claims, htoken, hclaims, hsub, -⟩
    have hbob : AccessTokenGuard.bearer (Sample.giving.http i).authorization = some "bob-" := by
      match i with
      | 0 => decide
      | 1 => decide
    obtain rfl : "bob-" = token := Option.some.inj (hbob.symm.trans htoken)
    obtain rfl : (⟨some "bob", none, none, none⟩ : Claims) = claims := Option.some.inj hclaims
    exact absurd hsub (by decide)
  have hreach : Reaches (Config.start Sample.beforeGifts fun i =>
      (Sample.giving.request i).call (Sample.digest Sample.giftDigests)) c := .of_play (.refl _) hplay
  have hroutes : ∀ i, Sample.giving.route i = .createReversal →
      Sample.openAccess.check (Sample.giving.http i) "ledger.reverse" ≠ none := by
    intro i hroute
    cases hroute
  exact ⟨c, hplay, of_decide_eq_true hlog,
    run_untouchable (Sample.proper_after (by decide)) hreach hrow rfl rfl hothers hroutes⟩

end Api

end MiniLedger
