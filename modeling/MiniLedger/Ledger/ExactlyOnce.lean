import MiniLedger.Collections.Joined
import MiniLedger.Ledger.Outbox

/-!
# Once per idempotency key

Of the transfers that carry one key at most one posts. Its row in the table of keys holds
its fingerprint, its journal and its receipt from the commit on, and whatever else returns
under the key returns that receipt. The fingerprint tells any two bodies apart, whatever the
owner's name holds, since only the first text of the join can hold the separator.
-/

namespace MiniLedger

open Collections Sessions

variable {sha256 : String → String} {db : Tables}

/-! ## The fingerprint -/

/-- The texts of the body that the fingerprint is taken of. -/
def TransferInput.texts (input : TransferInput) : List String :=
  [input.ownerId, input.from_, input.to_, input.amount, input.currency]

theorem free_of_chars {text : String} {p : Char → Bool} (h : ∀ c ∈ text.toList, p c = true) (hp : p '|' = false) :
    Free '|' text := by
  intro hc
  rw [h _ hc] at hp
  cases hp

theorem free_isUuid {text : String} (h : isUuid text = true) : Free '|' text := by
  refine free_of_chars (p := fun c => c == '-' || isHex c) (fun c hc => ?_) (by decide)
  rcases uuidPattern_chars h c hc with rfl | hhex
  · rfl
  · rw [hhex, Bool.or_true]

theorem free_isDigits {text : String} (h : isDigits text = true) : Free '|' text := by
  rw [isDigits, decide_eq_true_eq] at h
  exact free_of_chars (List.all_eq_true.1 h.2) (by decide)

theorem free_supported {code : String} {currency : Currency} (h : Currency.of code = .ok currency) : Free '|' code := by
  have known : ∀ code ∈ Currency.codes ++ Currency.objectPrototype, Free '|' code := by decide
  rcases Currency.of_cases h with ⟨hcode, -⟩ | ⟨hcode, -⟩
  · exact known code (List.mem_append_left _ hcode)
  · exact known code (List.mem_append_right _ hcode)

/-- Digests without collisions tell any two bodies apart. -/
theorem fingerprint_injective (hsha : Function.Injective sha256) {input input' : TransferInput}
    (hadmitted : input.Admitted) (hadmitted' : input'.Admitted) {currency currency' : Currency}
    (hsupported : Currency.of input.currency = .ok currency) (hsupported' : Currency.of input'.currency = .ok currency')
    (h : TransferService.fingerprint sha256 input = TransferService.fingerprint sha256 input') :
    input.texts = input'.texts := by
  have parts : ∀ (input : TransferInput) (currency : Currency), input.Admitted → Currency.of input.currency = .ok currency →
      ∀ t ∈ [input.from_, input.to_, input.amount, input.currency], Free '|' t := by
    rintro input currency ⟨hfrom, hto, hamount, -⟩ hsupported t ht
    simp only [List.mem_cons, List.not_mem_nil, or_false] at ht
    rcases ht with rfl | rfl | rfl | rfl
    exacts [free_isUuid hfrom, free_isUuid hto, free_isDigits hamount, free_supported hsupported]
  have hsep : "|".toList = ['|'] := rfl
  obtain ⟨howner, hrest⟩ := join_cons_injective hsep (by rfl) (parts input currency hadmitted hsupported)
    (parts input' currency' hadmitted' hsupported') (hsha h)
  rw [TransferInput.texts, TransferInput.texts, howner, hrest]

/-! ## What the log says of a key -/

/-- A transfer sent with the key, which is not empty. -/
def Request.Carries (key : String) : Request → Prop
  | .transfer input _ => input.idempotencyKey = some key ∧ key ≠ ""
  | _ => False

instance (key : String) (request : Request) : Decidable (request.Carries key) :=
  match request with
  | .transfer input _ => inferInstanceAs (Decidable (input.idempotencyKey = some key ∧ key ≠ ""))
  | .open_ _ _ _ => .isFalse nofun
  | .reverse _ _ => .isFalse nofun

/-- The keys the service claims are those that requests carry. -/
theorem Request.carries_transfer {key : String} {input : TransferInput} {id : Uuid} :
    (Request.transfer input id).Carries key ↔ TransferService.claimedKey input.idempotencyKey = some key := by
  rw [TransferService.claimedKey, Option.filter_eq_some_iff, decide_eq_true_eq]
  rfl

variable {ι : Type} {requests : ι → Request} {key : String} {log : List (Commit postgres ι Reply)}

/-- The journals committed by requests that carry the key. -/
def journalsUnder (requests : ι → Request) (key : String) (log : List (Commit postgres ι Reply)) :
    List (Uuid × JournalRow) :=
  (log.filter fun e => (requests e.session).Carries key).flatMap fun e => e.writes.filterMap Write.journal?

theorem journalsUnder_snoc (e : Commit postgres ι Reply) : journalsUnder requests key (log ++ [e]) =
    journalsUnder requests key log ++
      if (requests e.session).Carries key then e.writes.filterMap Write.journal? else [] := by
  rw [journalsUnder, List.filter_append, List.flatMap_append]
  congr 1
  split
  · rename_i h
    rw [List.filter_cons_of_pos (by simpa using h), List.filter_nil, List.flatMap_cons, List.flatMap_nil, List.append_nil]
  · rename_i h
    rw [List.filter_cons_of_neg (by simpa using h), List.filter_nil, List.flatMap_nil]

/-- Nothing has been committed under the key. -/
structure Unused (requests : ι → Request) (key : String) (log : List (Commit postgres ι Reply)) (t : Tables) : Prop where
  journals : journalsUnder requests key log = []
  row : t.keys.get? key = none
  silent : ∀ e ∈ log, ¬ (requests e.session).Carries key

/-- The transfer `input` has posted the journal `id` under the key, and whatever else was
committed under the key repeats its receipt. -/
structure Used (sha256 : String → String) (requests : ι → Request) (key : String) (log : List (Commit postgres ι Reply))
    (t : Tables) (first : ι) (input : TransferInput) (id : Uuid) (journal : JournalRow) (receipt : TransferReceipt) : Prop where
  request : requests first = .transfer input id
  carries : (requests first).Carries key
  supported : ∃ currency, Currency.of input.currency = .ok currency
  journals : journalsUnder requests key log = [(id, journal)]
  stored : t.journals.get? id = some journal
  row : t.keys.get? key = some ⟨TransferService.fingerprint sha256 input, some id, some receipt⟩
  event : ⟨"transfer.posted", receipt⟩ ∈ t.outbox
  named : receipt.id = id.text
  repeated : ∀ e ∈ log, (requests e.session).Carries key → e.reply = .transferred (.ok (some receipt)) ∧
    ∃ input' id' currency, requests e.session = .transfer input' id' ∧ Currency.of input'.currency = .ok currency ∧
      TransferService.fingerprint sha256 input' = TransferService.fingerprint sha256 input

/-- What the log and the tables say of a key. -/
def KeyHistory (sha256 : String → String) (requests : ι → Request) (key : String) (log : List (Commit postgres ι Reply))
    (t : Tables) : Prop :=
  Unused requests key log t ∨ ∃ first input id journal receipt, Used sha256 requests key log t first input id journal receipt

/-- A commit under another key, or under none. -/
theorem Unused.other {t' : Tables} {e : Commit postgres ι Reply} (h : Unused requests key log db)
    (hother : ¬ (requests e.session).Carries key) (hrow : t'.keys.get? key = db.keys.get? key) :
    Unused requests key (log ++ [e]) t' where
  journals := by rw [journalsUnder_snoc, if_neg hother, List.append_nil, h.journals]
  row := hrow.trans h.row
  silent := by
    intro e' he'
    rcases List.mem_append.1 he' with he' | he'
    · exact h.silent e' he'
    · rwa [List.mem_singleton.1 he']

theorem Used.other {t' : Tables} {e : Commit postgres ι Reply} {first : ι} {input : TransferInput} {id : Uuid}
    {journal : JournalRow} {receipt : TransferReceipt} (h : Used sha256 requests key log db first input id journal receipt)
    (hother : ¬ (requests e.session).Carries key) (hrow : t'.keys.get? key = db.keys.get? key)
    (hjournal : t'.journals.get? id = some journal) (houtbox : db.outbox <+: t'.outbox) :
    Used sha256 requests key (log ++ [e]) t' first input id journal receipt where
  request := h.request
  carries := h.carries
  supported := h.supported
  journals := by rw [journalsUnder_snoc, if_neg hother, List.append_nil, h.journals]
  stored := hjournal
  row := hrow.trans h.row
  event := houtbox.subset h.event
  named := h.named
  repeated := by
    intro e' he' hcarries
    rcases List.mem_append.1 he' with he' | he'
    · exact h.repeated e' he' hcarries
    · rw [List.mem_singleton.1 he'] at hcarries
      exact absurd hcarries hother

theorem transfer_writes_journal (key : Option String) (fingerprint : String) (b : Booking) :
    (TransferService.writes key fingerprint b).filterMap Write.journal? = [(b.id, ⟨b.currency, b.reverses⟩)] := by
  cases key with
  | none => exact b.writes_journal
  | some key =>
    rw [TransferService.writes, List.cons_append, List.filterMap_cons, List.filterMap_append, b.writes_journal]
    rfl

/-- A journal once committed stays. -/
theorem Committed.journal {request : Request} {r : Reply} {ws : List Write} (hc : Committed sha256 db request r ws)
    {id : Uuid} {row : JournalRow} (h : db.journals.get? id = some row) :
    (postgres.view db ws).journals.get? id = some row := by
  have kept : ∀ {b : Booking} {db' : Tables}, Booked db db' b → db.journals.get? b.id = none →
      db'.journals.get? id = some row := by
    intro b db' hb hfresh
    rw [hb.journals, Keyed.get?_set_of_ne, h]
    rintro rfl
    rw [hfresh] at h
    cases h
  cases hc with
  | opened | replayed => exact h
  | transferred _ _ _ _ _ hv => exact kept (booked_transfer ..) hv.fresh
  | reversed _ _ _ _ _ _ _ _ _ hv => exact kept (booked_writes ..) hv.fresh

/-- A commit of a request that does not carry the key leaves its row alone. -/
theorem Committed.key_row {request : Request} {r : Reply} {ws : List Write} (hc : Committed sha256 db request r ws)
    (hother : ¬ request.Carries key) : (postgres.view db ws).keys.get? key = db.keys.get? key := by
  cases hc with
  | opened | replayed => rfl
  | transferred =>
    rw [transfer_keys]
    exact if_neg fun hclaimed => hother (Request.carries_transfer.2 hclaimed)
  | reversed => rw [booking_keys]

theorem KeyHistory.other {e : Commit postgres ι Reply} (h : KeyHistory sha256 requests key log db)
    (hother : ¬ (requests e.session).Carries key) (hc : Committed sha256 db (requests e.session) e.reply e.writes) :
    KeyHistory sha256 requests key (log ++ [e]) (postgres.view db e.writes) := by
  rcases h with h | ⟨first, input, id, journal, receipt, h⟩
  · exact .inl (h.other hother (hc.key_row hother))
  · exact .inr ⟨first, input, id, journal, receipt, h.other hother (hc.key_row hother) (hc.journal h.stored) hc.outbox⟩

/-- The commit of a transfer that carries the key. -/
theorem KeyHistory.carried {i : ι} {r : Reply} {ws : List Write} {input : TransferInput} {id : Uuid}
    (h : KeyHistory sha256 requests key log db) (hrequest : requests i = .transfer input id)
    (hcarries : TransferService.claimedKey input.idempotencyKey = some key)
    (hc : Committed sha256 db (.transfer input id) r ws) :
    KeyHistory sha256 requests key (log ++ [⟨i, r, ws⟩]) (postgres.view db ws) := by
  have hi : (requests i).Carries key := by
    rw [hrequest]
    exact Request.carries_transfer.2 hcarries
  cases hc with
  | replayed currency amount journal key' row hch hclaimed hrow hsame =>
    obtain rfl : key = key' := Option.some.inj (hcarries.symm.trans hclaimed)
    rcases h with h | ⟨first, input₀, id₀, journal₀, receipt, h⟩
    · cases h.row.symm.trans hrow
    · cases h.row.symm.trans hrow
      refine .inr ⟨first, input₀, id₀, journal₀, receipt, { h with journals := ?_, repeated := ?_ }⟩
      · rw [journalsUnder_snoc, if_pos hi, h.journals]
        rfl
      · intro e he he'
        rcases List.mem_append.1 he with he | he
        · exact h.repeated e he he'
        · rw [List.mem_singleton.1 he]
          exact ⟨rfl, input, id, currency, hrequest, hch.supported, hsame.symm⟩
  | transferred currency amount journal b hch hv hunclaimed =>
    have hnone := hunclaimed key hcarries
    rcases h with h | ⟨first, input₀, id₀, journal₀, receipt, h⟩
    swap
    · cases hnone.symm.trans h.row
    have hb := booked_transfer db (TransferService.claimedKey input.idempotencyKey)
      (TransferService.fingerprint sha256 input) b
    have hid : b.id = id := hch.id_of_parse hv.id
    subst hid
    refine .inr ⟨i, input, b.id, ⟨b.currency, b.reverses⟩, b.event.payload, hrequest, hi, ⟨currency, hch.supported⟩, ?_, ?_,
      ?_, ?_, ?_, ?_⟩
    · rw [journalsUnder_snoc, if_pos hi, h.journals, transfer_writes_journal]
      rfl
    · rw [hb.journals, Keyed.get?_set_self]
    · rw [transfer_keys, if_pos hcarries]
    · rw [hb.outbox]
      refine List.mem_append_right _ (List.mem_singleton.2 ?_)
      rw [hv.event]
      rfl
    · rw [hv.event]
      exact hch.journal_id
    · intro e he he'
      rcases List.mem_append.1 he with he | he
      · exact absurd he' (h.silent e he)
      · rw [List.mem_singleton.1 he]
        exact ⟨rfl, input, b.id, currency, hrequest, hch.supported, rfl⟩

theorem KeyHistory.snoc {e : Commit postgres ι Reply} (h : KeyHistory sha256 requests key log db)
    (hc : Committed sha256 db (requests e.session) e.reply e.writes) :
    KeyHistory sha256 requests key (log ++ [e]) (postgres.view db e.writes) := by
  by_cases hcarries : (requests e.session).Carries key
  · obtain ⟨i, r, ws⟩ := e
    cases hrequest : requests i with
    | transfer input id =>
      rw [hrequest] at hc hcarries
      exact h.carried hrequest (Request.carries_transfer.1 hcarries) hc
    | open_ => rw [hrequest] at hcarries; exact hcarries.elim
    | reverse => rw [hrequest] at hcarries; exact hcarries.elim
  · exact h.other hcarries hc

/-- After every log that is a history of the ledger. -/
theorem chronicle_keyHistory {start t : Tables}
    (h : Chronicle postgres (fun i => (requests i).call sha256) start log t) (hfresh : start.keys.get? key = none) :
    KeyHistory sha256 requests key log t := by
  induction h with
  | nil => exact .inl ⟨rfl, hfresh, fun e he => absurd he List.not_mem_nil⟩
  | snoc e _ hc ih => exact ih.snoc (request_commits hc)

/-! ## The key in a run -/

/-- No transfer has posted under the key, and the next one may. -/
structure NotPosted (requests : ι → Request) (key : String) (c : Config postgres ι Reply) : Prop where
  journals : journalsUnder requests key c.log = []
  row : c.db.keys.get? key = none
  returned : ∀ i, (requests i).Carries key → ∀ r, c.phase i = .done (.ok r) → r.Refused

/-- Of the transfers with the key, `first` has posted, once. -/
structure PostedOnce (sha256 : String → String) (requests : ι → Request) (key : String) (c : Config postgres ι Reply)
    (first : ι) (input : TransferInput) (id : Uuid) (journal : JournalRow) (receipt : TransferReceipt) : Prop where
  request : requests first = .transfer input id
  carries : (requests first).Carries key
  journals : journalsUnder requests key c.log = [(id, journal)]
  stored : c.db.journals.get? id = some journal
  announced : Announces (Tables.bySeq (c.db.postingsOf id)) ⟨"transfer.posted", receipt⟩ id journal
  row : c.db.keys.get? key = some ⟨TransferService.fingerprint sha256 input, some id, some receipt⟩
  /-- what returns under the key returns its receipt -/
  returned : ∀ i, (requests i).Carries key → ∀ r, c.phase i = .done (.ok r) →
    r = .transferred (.ok (some receipt)) ∨ r.Refused
  /-- another body under the key is refused, and commits nothing -/
  conflicting : ∀ i input' id', requests i = .transfer input' id' → (requests i).Carries key →
    input'.texts ≠ input.texts → (∀ r, c.phase i = .done (.ok r) → r.Refused) ∧ ∀ e ∈ c.log, e.session ≠ i

theorem Committed.not_refused {request : Request} {r : Reply} {ws : List Write} (hc : Committed sha256 db request r ws) :
    ¬ r.Refused := by
  cases hc <;> exact id

/-- **Exactly once per key.** In every interleaving of any requests from the migrated
database, of those that carry the key at most one posts, its row is complete, what returns
returns its receipt, other bodies are refused; and a call that ends in an error has changed
nothing. -/
theorem transfers_once {ι : Type} [DecidableEq ι] [Fintype ι] {requests : ι → Request} {ids : WorldIds}
    {createdAt : Nat} {entrySize : String → Nat} {c : Config postgres ι Reply} (hsha : Function.Injective sha256) (hadmitted : ∀ i, (requests i).Admitted)
    (h : Reaches (Config.start (migrated ids createdAt entrySize) fun i => (requests i).call sha256) c) (key : String) :
    (NotPosted requests key c ∨ ∃ first input id journal receipt, PostedOnce sha256 requests key c first input id journal receipt) ∧
      ∀ i d x, Step c i d → (requests i).Carries key → d.phase i = .done x → (∀ r, x = .ok r → r.Refused) → d.db = c.db := by
  have hw : Reachable sha256 admitted (migrated ids createdAt entrySize) := ⟨ids, createdAt, entrySize, .refl⟩
  have chronicle := h.chronicle (D := discipline) hw.sound fun _ => request_disciplined _
  obtain ⟨houtcome, -⟩ := h.outcome fun i => @request_otherwise sha256 (requests i)
  have hreturned : ∀ i r, c.phase i = .done (.ok r) → r.Refused ∨ ∃ e ∈ c.log, e.session = i ∧ e.reply = r := by
    intro i r hdone
    have hi := houtcome i
    rw [hdone] at hi
    rcases hi with ⟨hrefused, -⟩ | ⟨e, he, hsession, heq⟩
    · exact .inl (hrefused r rfl)
    · cases heq
      exact .inr ⟨e, he, hsession, rfl⟩
  constructor
  · have hhistory : KeyHistory sha256 requests key c.log c.db := chronicle_keyHistory chronicle rfl
    rcases hhistory with hunused | ⟨first, input, id, journal, receipt, hused⟩
    · refine .inl ⟨hunused.journals, hunused.row, fun i hcarries r hdone => ?_⟩
      rcases hreturned i r hdone with hrefused | ⟨e, he, rfl, -⟩
      · exact hrefused
      · exact absurd hcarries (hunused.silent e he)
    · have hadmitted' : input.Admitted := by
        have hfirst := hadmitted first
        rw [hused.request] at hfirst
        exact hfirst
      have hconflict : ∀ i input' id', requests i = .transfer input' id' → (requests i).Carries key →
          input'.texts ≠ input.texts → ∀ e ∈ c.log, e.session ≠ i := by
        rintro _ input' id' hrequest hcarries hne e he rfl
        obtain ⟨-, input'', id'', currency, hrequest', hsupported, hsame⟩ := hused.repeated e he hcarries
        cases hrequest.symm.trans hrequest'
        obtain ⟨_, hsupported'⟩ := hused.supported
        have hbody := hadmitted e.session
        rw [hrequest] at hbody
        exact hne (fingerprint_injective hsha hbody hadmitted' hsupported hsupported' hsame)
      refine .inr ⟨first, input, id, journal, receipt, hused.request, hused.carries, hused.journals, hused.stored, ?_,
        hused.row, fun i hcarries r hdone => ?_, fun i input' id' hrequest hcarries hne => ⟨fun r hdone => ?_, ?_⟩⟩
      · obtain ⟨n, hn⟩ := List.mem_iff_getElem?.1 hused.event
        obtain ⟨id', ⟨journal', hjournal', hann⟩, -⟩ := (reaches_published hw h).event (reaches_inSequence hw h).ordered hn
        obtain rfl : id' = id := Uuid.ext (hann.id.symm.trans hused.named)
        cases hjournal'.symm.trans hused.stored
        exact hann
      · rcases hreturned i r hdone with hrefused | ⟨e, he, rfl, rfl⟩
        · exact .inr hrefused
        · exact .inl (hused.repeated e he hcarries).1
      · rcases hreturned i r hdone with hrefused | ⟨e, he, hsession, -⟩
        · exact hrefused
        · exact absurd hsession (hconflict i input' id' hrequest hcarries hne e he)
      · exact hconflict i input' id' hrequest hcarries hne
  · intro i d x hstep _ hdone hrefused
    cases hstep with
    | commit body recover told r ws held hp hs =>
      simp only [Config.commit, Function.update_self] at hdone
      cases hdone
      exact absurd (hrefused r rfl) (request_commits ((reaches_lawful hw h).commits hp hs).1).not_refused
    | _ => rfl

/-! ## A run on fixed inputs -/

namespace Sample

def opener : Fin 3 := 0
def payer : Fin 3 := 1
def again : Fin 3 := 2

/-- Alice opens an account and sends her deposit twice, under one key. -/
def retry : Fin 3 → Request
  | 0 => openAlice
  | 1 => .transfer { pay usd.text alice.text "100" "alice" with idempotencyKey := some "key" } deposit
  | 2 => .transfer { pay usd.text alice.text "100" "alice" with idempotencyKey := some "key" } second

/-- The second attempt begins while the first holds the key. -/
def retrying : List (Act postgres (Fin 3)) :=
  List.replicate 4 (.advance opener) ++ List.replicate 2 (.advance payer) ++ [.advance again] ++
    List.replicate 12 (.advance payer) ++ List.replicate 3 (.advance again)

def fundingReceipt : TransferReceipt :=
  ⟨deposit.text, some "USD", [⟨usd.text, "-100", "-100"⟩, ⟨alice.text, "100", "100"⟩]⟩

theorem digest_funding : Function.Injective (digest fundingDigests) :=
  digest_injective (by decide +kernel) (by decide +kernel)

end Sample

theorem transfers_once_retry : ∃ (c : Config postgres (Fin 3) Reply) (receipt : TransferReceipt),
    (Config.start (migrated Sample.worldIds 0 Sample.entrySize) fun i =>
      (Sample.retry i).call (Sample.digest Sample.fundingDigests)).play Sample.retrying = some c ∧
    journalsUnder Sample.retry "key" c.log = [(Sample.deposit, ⟨"USD", none⟩)] ∧
    c.phase Sample.payer = .done (.ok (.transferred (.ok (some receipt)))) ∧
    c.phase Sample.again = .done (.ok (.transferred (.ok (some receipt)))) := by
  have h : ((Config.start (migrated Sample.worldIds 0 Sample.entrySize) fun i =>
      (Sample.retry i).call (Sample.digest Sample.fundingDigests)).play Sample.retrying).any
      (fun c => decide (journalsUnder Sample.retry "key" c.log = [(Sample.deposit, ⟨"USD", none⟩)] ∧
        (c.phase Sample.payer).result = some (.ok (.transferred (.ok (some Sample.fundingReceipt)))) ∧
        (c.phase Sample.again).result = some (.ok (.transferred (.ok (some Sample.fundingReceipt)))))) = true := by
    decide +kernel
  obtain ⟨c, hplay, hc⟩ := (Option.any_eq_true _ _).1 h
  obtain ⟨hjournals, hfirst, hagain⟩ := of_decide_eq_true hc
  have hfirst := Phase.result_eq.1 hfirst
  have hagain := Phase.result_eq.1 hagain
  have hadmitted : ∀ i, (Sample.retry i).Admitted := by decide +kernel
  have hpayer : (Sample.retry Sample.payer).Carries "key" := by decide +kernel
  have hretry : (Sample.retry Sample.again).Carries "key" := by decide +kernel
  obtain ⟨hnone | ⟨_, _, _, _, receipt, honce⟩, -⟩ :=
    transfers_once Sample.digest_funding hadmitted (Reaches.of_play (.refl _) hplay) "key"
  · rw [hnone.journals] at hjournals
    cases hjournals
  · refine ⟨c, receipt, hplay, hjournals, ?_, ?_⟩
    · rcases honce.returned _ hpayer _ hfirst with heq | hrefused
      · rw [hfirst, heq]
      · exact hrefused.elim
    · rcases honce.returned _ hretry _ hagain with heq | hrefused
      · rw [hagain, heq]
      · exact hrefused.elim

end MiniLedger
