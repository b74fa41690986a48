import Mathlib.Logic.Basic

/-!
# Client programs

A client of a transactional store is a program that sends queries (plain reads) and
statements (writes and locking reads) and continues on the answers. Nothing here says
what an answer is: `Engine` runs a program alone against a store, `Interleaving` runs
many of them at once. A program sent outside a transaction is one over
`Interface.readOnly`, so that only queries can stand there.
-/

namespace Sessions

/-- What clients may send: queries with their rows, statements with their answers. -/
structure Interface where
  Query : Type
  Row : Query → Type
  Stmt : Type
  Ans : Stmt → Type

/-- The queries of `I` alone. -/
@[reducible] def Interface.readOnly (I : Interface) : Interface where
  Query := I.Query
  Row := I.Row
  Stmt := Empty
  Ans := Empty.elim

/-- A program that ends in a value or an exception `ε`. -/
inductive Prog (I : Interface) (ε α : Type) : Type where
  | pure (a : α)
  | throw (e : ε)
  | query (q : I.Query) (k : I.Row q → Prog I ε α)
  | stmt (s : I.Stmt) (k : I.Ans s → Prog I ε α)

namespace Prog

variable {I : Interface} {ε α β γ : Type}

def bind : Prog I ε α → (α → Prog I ε β) → Prog I ε β
  | .pure a, f => f a
  | .throw e, _ => .throw e
  | .query q k, f => .query q fun row => (k row).bind f
  | .stmt s k, f => .stmt s fun ans => (k ans).bind f

instance : Monad (Prog I ε) where
  pure := .pure
  bind := .bind

/-- Send one query and return its row. -/
def ask (q : I.Query) : Prog I ε (I.Row q) := .query q .pure

/-- Send one statement and return its answer. -/
def send (s : I.Stmt) : Prog I ε (I.Ans s) := .stmt s .pure

/-- Raise the error of a pure computation. -/
def ofExcept : Except ε α → Prog I ε α
  | .ok a => .pure a
  | .error e => .throw e

/-- A program of queries, sent inside a transaction. -/
def lift : Prog I.readOnly ε α → Prog I ε α
  | .pure a => .pure a
  | .throw e => .throw e
  | .query q k => .query q fun row => (k row).lift
  | .stmt s _ => nomatch s

@[simp] theorem pure_bind (a : α) (f : α → Prog I ε β) : (Prog.pure a).bind f = f a := rfl
@[simp] theorem throw_bind (e : ε) (f : α → Prog I ε β) : (Prog.throw e).bind f = .throw e := rfl
@[simp] theorem query_bind (q : I.Query) (k : I.Row q → Prog I ε α) (f : α → Prog I ε β) :
    (Prog.query q k).bind f = .query q fun row => (k row).bind f := rfl
@[simp] theorem stmt_bind (s : I.Stmt) (k : I.Ans s → Prog I ε α) (f : α → Prog I ε β) :
    (Prog.stmt s k).bind f = .stmt s fun ans => (k ans).bind f := rfl

@[simp] theorem monad_pure (a : α) : (Pure.pure a : Prog I ε α) = .pure a := rfl
@[simp] theorem monad_bind (p : Prog I ε α) (f : α → Prog I ε β) : (p >>= f) = p.bind f := rfl

theorem bind_pure (p : Prog I ε α) : p.bind .pure = p := by
  induction p with
  | pure a => rfl
  | throw e => rfl
  | query q k ih => simp only [query_bind, ih]
  | stmt s k ih => simp only [stmt_bind, ih]

theorem bind_assoc (p : Prog I ε α) (f : α → Prog I ε β) (g : β → Prog I ε γ) :
    (p.bind f).bind g = p.bind fun a => (f a).bind g := by
  induction p with
  | pure a => rfl
  | throw e => rfl
  | query q k ih => simp only [query_bind, ih]
  | stmt s k ih => simp only [stmt_bind, ih]

instance : LawfulMonad (Prog I ε) :=
  LawfulMonad.mk' _ (fun p => bind_pure p) (fun _ _ => rfl) bind_assoc

@[simp] theorem lift_pure (a : α) : (Prog.pure a : Prog I.readOnly ε α).lift = .pure a := rfl
@[simp] theorem lift_throw (e : ε) : (Prog.throw e : Prog I.readOnly ε α).lift = .throw e := rfl
@[simp] theorem lift_query (q : I.Query) (k : I.Row q → Prog I.readOnly ε α) :
    (Prog.query q k : Prog I.readOnly ε α).lift = .query q fun row => (k row).lift := rfl

end Prog

/-- What a client does once its reads outside a transaction are done: reply, or run `body`
in one transaction and map the exception it ends with through `recover`. -/
inductive Plan (I : Interface) (ε ρ : Type) : Type where
  | reply (r : ρ)
  | transaction (body : Prog I ε ρ) (recover : ε → Except ε ρ)

/-- A client call: reads on the committed state, then a plan. -/
abbrev Call (I : Interface) (ε ρ : Type) : Type := Prog I.readOnly ε (Plan I ε ρ)

end Sessions
