import MiniLedger.Ledger.Commits

/-!
# Runs of the ledger

The migrated database, the worlds requests served one after another lead to, and the one
rule for what holds in all of them: true of the migrated tables and kept by every commit.
-/

namespace MiniLedger

open Collections Sessions

/-- The ids the migration generates for the three `@world` accounts. -/
structure WorldIds where
  usd : Uuid
  eur : Uuid
  jpy : Uuid
  nodup : [usd, eur, jpy].Nodup

def worldAccount (currency : String) (createdAt : Nat) : AccountRow :=
  ⟨.system, currency, none, some "@world", none, createdAt⟩

/-- The database after its migrations, under a Postgres that compresses as `entrySize` says. -/
def migrated (ids : WorldIds) (createdAt : Nat) (entrySize : String → Nat) : postgres.World where
  db :=
    { accounts :=
        ⟨[(ids.usd, worldAccount "USD" createdAt), (ids.eur, worldAccount "EUR" createdAt),
          (ids.jpy, worldAccount "JPY" createdAt)], ids.nodup⟩
      balances := ⟨[(ids.usd, ⟨0, none⟩), (ids.eur, ⟨0, none⟩), (ids.jpy, ⟨0, none⟩)], ids.nodup⟩
      journals := .empty
      postings := []
      keys := .empty
      outbox := []
      entrySize := entrySize }
  seq := 1

/-- The accounts of the migrated database. -/
theorem migrated_account {ids : WorldIds} {createdAt : Nat} {entrySize : String → Nat} {u : Uuid} {row : AccountRow}
    (h : (migrated ids createdAt entrySize).db.accounts.get? u = some row) :
    ∃ code ∈ Currency.codes, row = worldAccount code createdAt ∧
      (migrated ids createdAt entrySize).db.balances.get? u = some ⟨0, none⟩ := by
  have hmem := Keyed.get?_eq_some_iff.1 h
  simp only [migrated, List.mem_cons, Prod.mk.injEq, List.not_mem_nil, or_false] at hmem
  rcases hmem with ⟨rfl, rfl⟩ | ⟨rfl, rfl⟩ | ⟨rfl, rfl⟩
  · exact ⟨"USD", by decide, rfl, Keyed.get?_eq_some_iff.2 (by simp [migrated])⟩
  · exact ⟨"EUR", by decide, rfl, Keyed.get?_eq_some_iff.2 (by simp [migrated])⟩
  · exact ⟨"JPY", by decide, rfl, Keyed.get?_eq_some_iff.2 (by simp [migrated])⟩

/-- A request alone, on the world `w`. -/
def serve (sha256 : String → String) (request : Request) (w : postgres.World) : Except Failure Reply × postgres.World :=
  postgres.serve (request.call sha256) w

/-- Requests served one after another, from the world `w` on. -/
def serially (sha256 : String → String) (requests : List Request) (w : postgres.World) : postgres.World :=
  requests.foldl (fun w request => (serve sha256 request w).2) w

theorem serially_append (sha256 : String → String) (requests more : List Request) (w : postgres.World) :
    serially sha256 (requests ++ more) w = serially sha256 more (serially sha256 requests w) :=
  List.foldl_append

/-- Requests served one after another, each satisfying `P` on the tables it meets. -/
inductive Served (sha256 : String → String) (P : Tables → Request → Prop) (w : postgres.World) :
    postgres.World → Prop where
  | refl : Served sha256 P w w
  | step {w'} (request : Request) : Served sha256 P w w' → P w'.db request →
      Served sha256 P w (serve sha256 request w').2

/-- The worlds such requests lead to from the migrated database. -/
def Reachable (sha256 : String → String) (P : Tables → Request → Prop) (w : postgres.World) : Prop :=
  ∃ ids createdAt entrySize, Served sha256 P (migrated ids createdAt entrySize) w

theorem Reachable.mono {sha256 : String → String} {P Q : Tables → Request → Prop} {w : postgres.World}
    (h : Reachable sha256 P w) (hpq : ∀ t request, P t request → Q t request) : Reachable sha256 Q w := by
  obtain ⟨ids, createdAt, entrySize, hs⟩ := h
  refine ⟨ids, createdAt, entrySize, ?_⟩
  induction hs with
  | refl => exact .refl
  | step request _ hp ih => exact .step request ih (hpq _ _ hp)

/-- Any request the controllers let through. -/
def admitted (_ : Tables) (request : Request) : Prop := request.Admitted

variable {sha256 : String → String} {P : Tables → Request → Prop} {w w' : postgres.World}

/-- A request alone keeps the tables or commits. -/
theorem serve_committed (request : Request) (w : postgres.World) :
    (serve sha256 request w).2.db = w.db ∨
      ∃ r ws, (serve sha256 request w).1 = .ok r ∧ Committed sha256 w.db request r ws ∧
        (serve sha256 request w).2.db = postgres.view w.db ws := by
  rcases postgres.serve_cases (request.call sha256) w with h | ⟨r, ws, hres, hc, hdb⟩
  · exact .inl h
  · exact .inr ⟨r, ws, hres, request_commits hc, hdb⟩

/-- What every commit keeps holds wherever a run leads. -/
theorem Served.invariant {motive : Tables → Prop} (h : Served sha256 P w w') (h0 : motive w.db)
    (step : ∀ {db request r ws}, P db request → motive db → Committed sha256 db request r ws → motive (postgres.view db ws)) :
    motive w'.db := by
  induction h with
  | refl => exact h0
  | @step w' request _ hp ih =>
    rcases serve_committed request w' with heq | ⟨r, ws, -, hc, heq⟩
    · exact heq ▸ ih
    · exact heq ▸ step hp ih hc

theorem Served.serially {requests : List Request} (h : Served sha256 admitted w w') (hr : ∀ r ∈ requests, r.Admitted) :
    Served sha256 admitted w (serially sha256 requests w') := by
  induction requests generalizing w' with
  | nil => exact h
  | cons r rs ih =>
    rw [List.forall_mem_cons] at hr
    exact ih (.step r h hr.1) hr.2

/-- A journal was committed on the way from `db` to `db'`. -/
def Posts (db db' : Tables) : Prop := ∃ id, db.journals.get? id = none ∧ (db'.journals.get? id).isSome

theorem not_posts_self (db : Tables) : ¬ Posts db db := by
  rintro ⟨id, hnone, hsome⟩
  rw [hnone] at hsome
  cases hsome

/-- A transfer that posts has booked. -/
theorem transfer_posts {input : TransferInput} {id : Uuid}
    (hp : Posts w.db (serve sha256 (.transfer input id) w).2.db) :
    ∃ currency amount journal b, Checked input id currency amount journal ∧
      b.Valid sha256 w.db journal currency (transferOptions input.ownerId) ∧
      (∀ key ∈ TransferService.claimedKey input.idempotencyKey, w.db.keys.get? key = none) ∧
      (serve sha256 (.transfer input id) w).1 = .ok (.transferred (.ok (some b.event.payload))) ∧
      (serve sha256 (.transfer input id) w).2.db = postgres.view w.db (TransferService.writes (TransferService.claimedKey input.idempotencyKey)
        (TransferService.fingerprint sha256 input) b) := by
  rcases serve_committed (.transfer input id) w with heq | ⟨r, ws, hres, hc, heq⟩
  · rw [heq] at hp; exact absurd hp (not_posts_self _)
  · cases hc with
    | replayed => rw [heq] at hp; exact absurd hp (not_posts_self _)
    | transferred currency amount journal b hch hb hkeys =>
      exact ⟨currency, amount, journal, b, hch, hb, hkeys, hres, heq⟩

/-! ## A small ledger

The accounts, calls and digests the runs on fixed inputs share. A digest function is given
by its values at the texts a run hashes, all of them those of SHA-256. -/

namespace Sample

def digest (table : List (String × String)) (text : String) : String := (table.lookup text).getD ("?" ++ text)

/-- No two texts share a digest. -/
theorem digest_injective {table : List (String × String)} (hnodup : (table.map Prod.snd).Nodup)
    (hmark : ∀ e ∈ table, e.2.toList.head? ≠ some '?') : Function.Injective (digest table) := by
  have known : ∀ {text value : String}, table.lookup text = some value → (text, value) ∈ table := by
    intro text value h
    obtain ⟨before, after, rfl, -⟩ := List.lookup_eq_some_iff.1 h
    simp
  have marked : ∀ text, ("?" ++ text).toList.head? = some '?' := by
    intro text
    rw [String.toList_append]
    rfl
  intro s t h
  unfold digest at h
  cases hs : table.lookup s with
  | none =>
    cases ht : table.lookup t with
    | none =>
      rw [hs, ht] at h
      exact String.append_right_inj _ |>.1 h
    | some value =>
      rw [hs, ht] at h
      exact absurd ((congrArg (fun x => x.toList.head?) h).symm.trans (marked s)) (hmark _ (known ht))
  | some value =>
    cases ht : table.lookup t with
    | none =>
      rw [hs, ht] at h
      exact absurd ((congrArg (fun x => x.toList.head?) h).trans (marked t)) (hmark _ (known hs))
    | some value' =>
      rw [hs, ht] at h
      obtain rfl : value = value' := h
      exact congrArg Prod.fst (List.inj_on_of_nodup_map hnodup (known hs) (known ht) rfl)

def usd : Uuid := ⟨"00000000-0000-4000-8000-000000000001", by decide⟩
def eur : Uuid := ⟨"00000000-0000-4000-8000-000000000002", by decide⟩
def jpy : Uuid := ⟨"00000000-0000-4000-8000-000000000003", by decide⟩
def alice : Uuid := ⟨"00000000-0000-4000-8000-00000000000a", by decide⟩
def bob : Uuid := ⟨"00000000-0000-4000-8000-00000000000b", by decide⟩
def deposit : Uuid := ⟨"00000000-0000-4000-8000-000000000011", by decide⟩
def second : Uuid := ⟨"00000000-0000-4000-8000-000000000012", by decide⟩
def third : Uuid := ⟨"00000000-0000-4000-8000-000000000013", by decide⟩

/-- The two clients of a run at once. -/
def one : Fin 2 := 0
def other : Fin 2 := 1

/-- Alice's id as a client may also spell it. -/
def aliceUpper : String := "00000000-0000-4000-8000-00000000000A"

def bobUpper : String := "00000000-0000-4000-8000-00000000000B"

def worldIds : WorldIds := ⟨usd, eur, jpy, by decide⟩

/-- An index entry that is not compressed. -/
def entrySize (text : String) : Nat := utf8Length text + 12

/-- A body in dollars, sent without a key. -/
def pay (from_ to_ amount ownerId : String) : TransferInput := ⟨from_, to_, amount, "USD", ownerId, none⟩

/-- The requests served in order on the migrated database. -/
def after (table : List (String × String)) (requests : List Request) : postgres.World :=
  serially (digest table) requests (migrated worldIds 0 entrySize)

theorem reachable_after {table : List (String × String)} {requests : List Request} (h : ∀ r ∈ requests, r.Admitted) :
    Reachable (digest table) admitted (after table requests) :=
  ⟨worldIds, 0, entrySize, Served.refl.serially h⟩

def openAlice : Request := .open_ ⟨"USD", "alice"⟩ alice 0

def openBob : Request := .open_ ⟨"USD", "bob"⟩ bob 0

/-- Alice's first hundred. -/
def fundAlice : Request := .transfer (pay usd.text alice.text "100" "alice") deposit

def fundingDigests : List (String × String) :=
  [("|".intercalate ["alice", usd.text, alice.text, "100", "USD"],
      "bf493c437671847baf5f3bd34de241d20ed24c3064de6614ddca8f9b8aa01f47"),
    ("|".intercalate ["", deposit.text, usd.text, "-100", "-100"],
      "5606763eb3120fd42b4c43ccad70cd7a244b40cc02b375f7ac667287f7d4d6fa"),
    ("|".intercalate ["", deposit.text, alice.text, "100", "100"],
      "f8ec3841310aa3d2ace6997273f3b833bb4c8334d8a31e6b1d1fa8e7839da3ef")]

/-- The world before the deposit. -/
def openedWorld : postgres.World := after fundingDigests [openAlice]

/-- The world after the deposit. -/
def fundedWorld : postgres.World := after fundingDigests [openAlice, fundAlice]

/-- Alice pays a quarter of it back. -/
def spendAlice : Request := .transfer (pay alice.text usd.text "25" "alice") second

def spendingDigests : List (String × String) :=
  fundingDigests ++
    [("|".intercalate ["alice", alice.text, usd.text, "25", "USD"],
        "a61520efde359ca85d7b29a80ab715d84d68f007cc783435d548643c18a4bbba"),
      ("|".intercalate ["f8ec3841310aa3d2ace6997273f3b833bb4c8334d8a31e6b1d1fa8e7839da3ef", second.text, alice.text,
          "-25", "75"],
        "8afa10e9c772af953453406bfe5586244a773f021148e58368e48c79535a38c1"),
      ("|".intercalate ["5606763eb3120fd42b4c43ccad70cd7a244b40cc02b375f7ac667287f7d4d6fa", second.text, usd.text,
          "25", "-75"],
        "76c65b8ae65f31ab98eef1bbe898da7ed79f2836260f0ade5442640d7975a778")]

theorem deposit_posts :
    Posts openedWorld.db (serve (digest fundingDigests) (.transfer (pay usd.text alice.text "100" "alice") deposit)
      openedWorld).2.db := by
  have h : openedWorld.db.journals.get? deposit = none ∧
      ((serve (digest fundingDigests) (.transfer (pay usd.text alice.text "100" "alice") deposit)
        openedWorld).2.db.journals.get? deposit).isSome := by decide +kernel
  exact ⟨deposit, h⟩

end Sample

end MiniLedger
