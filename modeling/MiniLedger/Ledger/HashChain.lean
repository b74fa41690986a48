import Mathlib.Algebra.Ring.Int.Defs
import Mathlib.Data.List.Basic

/-!
# The hash chain of an account's postings

`sha256` stands for the hexadecimal digest of `node:crypto`; nothing here asks anything of
it. `Trail` is the path behind `verifyChain` and the balances written with it: from what an
account held before the first entry to what it holds after the last one.
-/

namespace MiniLedger

/-- What a posting's hash is taken of, with the hash before it. -/
structure PostingContent where
  transactionId : String
  accountId : String
  amount : Int
  balanceAfter : Int
  deriving DecidableEq, Repr

/-- A posting as the verifier reads it. -/
structure ChainEntry where
  prevHash : Option String
  hash : String
  content : PostingContent
  deriving DecidableEq, Repr

/-- What the verifier's loop returns. -/
structure ChainVerification where
  valid : Bool
  brokenAtIndex : Option Nat
  deriving DecidableEq, Repr

variable (sha256 : String → String)

def hashPosting (prevHash : Option String) (content : PostingContent) : String :=
  let canonical := "|".intercalate [prevHash.getD "", content.transactionId, content.accountId,
    toString content.amount, toString content.balanceAfter]
  sha256 canonical

/-- The loop of `verifyChain`, at `index` with the hash before it. -/
def verifyFrom (prev : Option String) (index : Nat) : List ChainEntry → ChainVerification
  | [] => ⟨true, none⟩
  | entry :: entries =>
    if entry.prevHash ≠ prev ∨ entry.hash ≠ hashPosting sha256 prev entry.content then ⟨false, some index⟩
    else verifyFrom (some entry.hash) (index + 1) entries

def verifyChain (entries : List ChainEntry) : ChainVerification := verifyFrom sha256 none 0 entries

/-- The entries lead from `balance` and the hash `prev` to `balance'` and the hash `last`. -/
def Trail : Int → Option String → List ChainEntry → Int → Option String → Prop
  | balance, prev, [], balance', last => balance' = balance ∧ last = prev
  | balance, prev, entry :: entries, balance', last =>
    entry.content.balanceAfter = balance + entry.content.amount ∧ entry.prevHash = prev ∧
      entry.hash = hashPosting sha256 prev entry.content ∧
      Trail entry.content.balanceAfter (some entry.hash) entries balance' last

namespace Trail

variable {sha256} {balance balance' mid : Int} {prev last midHash : Option String} {entries xs ys : List ChainEntry}

theorem append (h : Trail sha256 balance prev xs mid midHash) (h' : Trail sha256 mid midHash ys balance' last) :
    Trail sha256 balance prev (xs ++ ys) balance' last := by
  induction xs generalizing balance prev with
  | nil => obtain ⟨rfl, rfl⟩ := h; exact h'
  | cons x xs ih => exact ⟨h.1, h.2.1, h.2.2.1, ih h.2.2.2⟩

/-- The auditor's loop finds nothing broken on a trail. -/
theorem verifyFrom {index : Nat} (h : Trail sha256 balance prev entries balance' last) :
    verifyFrom sha256 prev index entries = ⟨true, none⟩ := by
  induction entries generalizing balance prev index with
  | nil => rfl
  | cons e es ih =>
    obtain ⟨_, hp, hh, h⟩ := h
    rw [MiniLedger.verifyFrom, if_neg (by simp [hp, ← hh]), ih h]

/-- Where a trail leads: the hash and the balance of its last entry. -/
theorem last_eq (h : Trail sha256 balance prev entries balance' last) :
    last = (entries.getLast?.map ChainEntry.hash).or prev ∧
      balance' = (entries.getLast?.map fun e => e.content.balanceAfter).getD balance := by
  induction entries generalizing balance prev with
  | nil => obtain ⟨rfl, rfl⟩ := h; simp
  | cons e es ih =>
    obtain ⟨hl, hb⟩ := ih h.2.2.2
    cases es with
    | nil => simpa using ⟨hl, hb⟩
    | cons e' es => simpa [List.getLast?_eq_some_getLast] using ⟨hl, hb⟩

/-- A trail adds up its amounts. -/
theorem sum (h : Trail sha256 balance prev entries balance' last) :
    balance' = balance + (entries.map fun e => e.content.amount).sum := by
  induction entries generalizing balance prev with
  | nil => simp [h.1]
  | cons e es ih => rw [ih h.2.2.2, h.1, List.map_cons, List.sum_cons, Int.add_assoc]

/-- Each balance on a trail is the sum up to and including its entry. -/
theorem balanceAfter (h : Trail sha256 balance prev entries balance' last) {i : Nat} (hi : i < entries.length) :
    entries[i].content.balanceAfter = balance + ((entries.take (i + 1)).map fun e => e.content.amount).sum := by
  induction entries generalizing balance prev i with
  | nil => simp at hi
  | cons e es ih =>
    cases i with
    | zero => simpa using h.1
    | succ i =>
      have := ih h.2.2.2 (i := i) (by simpa using hi)
      rw [h.1] at this
      simpa [Int.add_assoc] using this

end Trail

end MiniLedger
