import MiniLedger.Dashboard.MoneyText
import MiniLedger.Ledger.Reading

/-!
# The HTTP boundary

The three routes that write, from the request as the body parser leaves it to the response:
the token guard, the capability guard, the validation pipe, the use case, and the problem a
refusal is answered with. Token verification and the capability check are other services';
they are the parameter `AccessCore`.
-/

namespace MiniLedger.Api

open Sessions

/-! ## `src/shared/http` -/

/-- An `application/problem+json` body. -/
structure ProblemDetails where
  type : String
  title : String
  status : Nat
  detail : Option String
  deriving DecidableEq, Repr

/-- A parsed body. -/
inductive Json where
  | null
  | bool (value : Bool)
  | number (text : String)
  | string (value : String)
  | array (items : List Json)
  | object (members : List (String × Json))

/-- The name zod gives the kind of a value; `undefined` is `none`. -/
def kind : Option Json → String
  | none => "undefined"
  | some .null => "null"
  | some (.bool _) => "boolean"
  | some (.number _) => "number"
  | some (.string _) => "string"
  | some (.array _) => "array"
  | some (.object _) => "object"

/-- Of two members of one name the parser keeps the later. -/
def member (members : List (String × Json)) (key : String) : Option Json := members.reverse.lookup key

/-- A check of a string schema. -/
inductive Check where
  | uuid
  /-- `.regex(/^\d+$/)` -/
  | digits
  | min (length : Nat)
  | max (length : Nat)
  deriving DecidableEq

def Check.passes (text : String) : Check → Bool
  | .uuid => isUuid text
  | .digits => isDigits text
  | .min length => length ≤ utf16Length text
  | .max length => utf16Length text ≤ length

/-- What the schema finds wrong with one member of a body. -/
inductive Issue where
  | invalidType (expected received : String)
  | failed (check : Check)
  deriving DecidableEq

/-- The issues of one field, every check tried. -/
def issuesOf (checks : List Check) : Option Json → List Issue
  | some (.string text) => (checks.filter fun check => !check.passes text).map .failed
  | value => [.invalidType "string" (kind value)]

def textOf : Option Json → String
  | some (.string text) => text
  | _ => ""

/-- `z.object(shape).safeParse(body)` for string fields: every issue in the order of the
fields, or the fields; what is not in the shape is dropped. -/
def safeParse (shape : List (String × List Check)) : Option Json → Except (List Issue) (String → String)
  | some (.object members) =>
    let issues := shape.flatMap fun field => issuesOf field.2 (member members field.1)
    if issues = [] then .ok fun key => textOf (member members key) else .error issues
  | body => .error [.invalidType "object" (kind body)]

/-- `ZodValidationPipe.transform`; `message` is the text zod gives an issue. -/
def transform (message : Issue → String) {α : Type} (parsed : Except (List Issue) α) : Except ProblemDetails α :=
  parsed.mapError fun issues => ⟨"about:blank", "Validation failed", 422, some ("; ".intercalate (issues.map message))⟩

/-- What a response carries. -/
inductive Body where
  | problem (details : ProblemDetails)
  | account (response : AccountResponse)
  | receipt (response : Option TransferReceipt)
  /-- of an exception no filter knows -/
  | internal
  deriving DecidableEq

structure HttpResponse where
  status : Nat
  contentType : String
  body : Body
  deriving DecidableEq

/-- `ProblemDetailsFilter.catch`. -/
def catch_ (problem : ProblemDetails) : HttpResponse := ⟨problem.status, "application/problem+json", .problem problem⟩

/-- An exception that is not an `HttpException` is left to the framework. -/
def internalError : HttpResponse := ⟨500, "application/json", .internal⟩

def created (body : Body) : HttpResponse := ⟨201, "application/json", body⟩

/-! ## `src/access` -/

/-- What the handlers read of a request. -/
structure HttpRequest where
  authorization : Option String
  idempotencyKey : Option String
  /-- `undefined` when none was sent -/
  body : Option Json

/-- The claims of a verified token; one that is not a string is `none`. -/
structure Claims where
  sub : Option String
  org : Option String
  sid : Option String
  aal : Option String

/-- Who sends a request, as its token says. -/
structure Principal where
  subject : String
  org : Option String
  sessionId : Option String
  assuranceLevel : Option String
  deriving DecidableEq

/-- What the guards leave to the token library and the SDK. -/
structure AccessCore where
  /-- `jwtVerify` with the issuer, the audience, the algorithm and the clock of the service -/
  verify : String → Option Claims
  /-- the permission guard of the SDK: the problem it throws, if it does not grant -/
  check : HttpRequest → String → Option ProblemDetails

namespace AccessTokenGuard

def bearer (header : Option String) : Option String :=
  match header with
  | none => none
  | some header =>
    if "Bearer ".toList <+: header.toList then
      let token := Dashboard.trim (header.toList.drop "Bearer ".length)
      if token = [] then none else some (String.ofList token)
    else none

def unauthenticated (detail : String) : ProblemDetails := ⟨"about:blank", "Unauthenticated", 401, some detail⟩

def canActivate (access : AccessCore) (request : HttpRequest) : Except ProblemDetails Principal :=
  match bearer request.authorization with
  | none => .error (unauthenticated "a bearer access token is required")
  | some token =>
    match access.verify token with
    | none => .error (unauthenticated "the access token is invalid or expired")
    | some claims =>
      match claims.sub.filter fun subject => subject ≠ "" with
      | none => .error (unauthenticated "the access token has no subject")
      | some subject => .ok ⟨subject, claims.org, claims.sid, claims.aal⟩

end AccessTokenGuard

def requirePermission (access : AccessCore) (request : HttpRequest) (permission : String) : Except ProblemDetails Unit :=
  match access.check request permission with
  | some problem => .error problem
  | none => .ok ()

/-! ## `src/ledger/interface` -/

structure OpenAccountDto where
  currency : String

structure TransferDto where
  from_ : String
  to_ : String
  amount : String
  currency : String

structure ReversalDto where
  transactionId : String

def openAccountSchema (body : Option Json) : Except (List Issue) OpenAccountDto :=
  (safeParse [("currency", [.min 1, .max 8])] body).map fun field => ⟨field "currency"⟩

def transferSchema (body : Option Json) : Except (List Issue) TransferDto :=
  (safeParse [("from", [.uuid]), ("to", [.uuid]), ("amount", [.digits]), ("currency", [.min 1, .max 8])] body).map
    fun field => ⟨field "from", field "to", field "amount", field "currency"⟩

def reversalSchema (body : Option Json) : Except (List Issue) ReversalDto :=
  (safeParse [("transactionId", [.uuid])] body).map fun field => ⟨field "transactionId"⟩

/-- The endpoints that write. -/
inductive Route where
  | openAccount
  | createTransfer
  | createReversal
  deriving DecidableEq

/-- The capability `@RequirePermission` names. -/
def Route.permission : Route → String
  | .openAccount => "ledger.open"
  | .createTransfer => "ledger.transfer"
  | .createReversal => "ledger.reverse"

variable (access : AccessCore) (message : Issue → String)

/-- The use case a handler calls, once the guards and the pipe let the request through. `id`
and `now` are what the use case will generate. -/
def accept (route : Route) (request : HttpRequest) (id : Uuid) (now : Nat) : Except ProblemDetails Request := do
  let principal ← AccessTokenGuard.canActivate access request
  requirePermission access request route.permission
  match route with
  | .openAccount =>
    let body ← transform message (openAccountSchema request.body)
    return .open_ ⟨body.currency, principal.subject⟩ id now
  | .createTransfer =>
    let body ← transform message (transferSchema request.body)
    return .transfer ⟨body.from_, body.to_, body.amount, body.currency, principal.subject,
      request.idempotencyKey.filter fun key => key ≠ ""⟩ id
  | .createReversal =>
    let body ← transform message (reversalSchema request.body)
    return .reverse body.transactionId id

namespace TransfersController

def problems : TransferError → Nat × String
  | .unknownCurrency => (422, "Unknown currency")
  | .nonPositiveAmount => (422, "Amount must be a positive integer")
  | .sameAccount => (422, "Source and destination must differ")
  | .unknownAccount => (404, "Account not found")
  | .accountCurrencyMismatch => (422, "Account currency does not match the transfer")
  | .notAccountOwner => (403, "You do not own the source account")
  | .insufficientFunds => (422, "Insufficient funds")
  | .idempotencyConflict => (409, "Idempotency key reused for a different request")

def code : TransferError → String
  | .unknownCurrency => "unknown_currency"
  | .nonPositiveAmount => "non_positive_amount"
  | .sameAccount => "same_account"
  | .unknownAccount => "unknown_account"
  | .accountCurrencyMismatch => "account_currency_mismatch"
  | .notAccountOwner => "not_account_owner"
  | .insufficientFunds => "insufficient_funds"
  | .idempotencyConflict => "idempotency_conflict"

end TransfersController

namespace ReversalsController

def problems : ReverseError → Nat × String
  | .unknownTransaction => (404, "Transaction not found")
  | .alreadyReversed => (409, "Transaction already reversed")
  | .insufficientFunds => (422, "Insufficient funds to reverse")

def code : ReverseError → String
  | .unknownTransaction => "unknown_transaction"
  | .alreadyReversed => "already_reversed"
  | .insufficientFunds => "insufficient_funds"

end ReversalsController

/-- The problem of a refusal with an entry of a `PROBLEMS` table. -/
def refusal (problem : Nat × String) (code : String) : HttpResponse :=
  catch_ ⟨"about:blank", problem.2, problem.1, some code⟩

/-- The response to what the use case returned. A new account is answered with its balance
as of the tables `later`. -/
def respond (later : Tables) : Except Failure Reply → HttpResponse
  | .error _ => internalError
  | .ok (.opened (.error .unknownCurrency)) => refusal (422, "Unknown currency") "unknown_currency"
  | .ok (.opened (.ok account)) =>
    match postgres.read later (AccountsService.balanceOf account.id) with
    | .error _ => internalError
    | .ok balance => created (.account (AccountsController.toResponse account balance))
  | .ok (.transferred (.error e)) => refusal (TransfersController.problems e) (TransfersController.code e)
  | .ok (.transferred (.ok receipt)) => created (.receipt receipt)
  | .ok (.reversed (.error e)) => refusal (ReversalsController.problems e) (ReversalsController.code e)
  | .ok (.reversed (.ok receipt)) => created (.receipt (some receipt))

end MiniLedger.Api
