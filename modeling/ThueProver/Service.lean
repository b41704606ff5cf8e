import ThueProver.MediaType
import ThueProver.Prover
import ThueProver.RequestTarget

/-!
# The prover as a web service

Answers to requests: the state of the service, the axioms, and proofs. Pages of any origin may ask,
so a request for the options of a path is granted on every path. A path answers the methods it has,
and HEAD where it has GET.
-/
namespace ThueProver.Service

structure Request where
  method : String
  path : String
  headers : List (String × String) := []
  body : String := ""
  deriving DecidableEq, Repr, Inhabited

namespace Request

/-- A method or the name of a header is a token. -/
def isToken (text : String) : Bool := text != "" && text.toList.all MediaType.isTokenChar

/-- The value of a header has no control characters but the tab. -/
def isHeaderValue (text : String) : Bool :=
  text.toList.all fun c => (' ' ≤ c && c != '\x7f') || c == '\t'

/-- The request for a target. There is none if a part of it cannot be sent. -/
def to? (method target : String) (headers : List (String × String)) (body : String) :
    Option Request :=
  match RequestTarget.path? target with
  | none => none
  | some path =>
      if isToken method && headers.all fun h => isToken h.1 && isHeaderValue h.2 then
        some ⟨method, path, headers, body⟩
      else none

end Request

inductive Body where
  | empty
  | json (value : Json)
  | text (value : String)
  deriving Inhabited, Repr

structure Response where
  status : Nat
  headers : List (String × String) := []
  body : Body := .empty
  deriving Inhabited, Repr

def version : String := "0.3.1"

/-- The pages served. -/
inductive Route where
  | health
  | axioms
  | prove
  deriving DecidableEq, Repr

namespace Route

def ofPath? : String → Option Route
  | "/health" => some health
  | "/axioms" => some axioms
  | "/prove" => some prove
  | _ => none

/-- The methods a page answers, as they are announced. -/
def methods : Route → String
  | health | axioms => "GET,HEAD"
  | prove => "POST"

end Route

/-- The value of a header, whatever the case of its name. -/
def header? (request : Request) (name : String) : Option String :=
  (request.headers.find? fun h => h.1.toLower == name).map (·.2)

/-- Headers of every answer. -/
def sharedHeaders : List (String × String) :=
  [("access-control-allow-origin", "*"),
    ("vary", "origin, access-control-request-method, access-control-request-headers")]

def plain : String × String := ("content-type", "text/plain; charset=utf-8")

def answerJson (status : Nat) (value : Json) : Response :=
  ⟨status, [("content-type", "application/json")], .json value⟩

def answerText (status : Nat) (text : String) : Response := ⟨status, [plain], .text text⟩

def healthPage : Json :=
  .record [("status", .text "ok"), ("service", .text "primeproof"), ("version", .text version)]

def ruleToJson (rule : Rule) : Json :=
  .record [
    ("id", .number rule.id),
    ("lhs", .texts rule.entered.left),
    ("rhs", .texts rule.entered.right),
    ("was_swapped", .flag rule.swapped)]

def axiomsPage (p : Prover) : Json := .list (p.book.rules.map ruleToJson)

/-- The shape of a theorem to prove. -/
def theoremSchema : Schema := .record (.ofList [("lhs", .texts), ("rhs", .texts)])

def theoremOfJson? : Json → Option Equation
  | .record [(_, left), (_, right)] => do return ⟨← left.texts?, ← right.texts?⟩
  | _ => none

/-- Proves the theorem in the body of a request. Text after the theorem is ignored. -/
def provePage (p : Prover) (request : Request) : Response :=
  if !(header? request "content-type").any MediaType.isJson then
    answerText 415 "Expected request with `Content-Type: application/json`"
  else
    match theoremSchema.readFirst request.body with
    | .error .malformed => answerText 400 "Failed to parse the request body as JSON"
    | .error .mistyped => answerText 422 "Failed to deserialize the JSON body into the target type"
    | .ok v =>
        match theoremOfJson? v with
        | none => answerText 422 "Failed to deserialize the JSON body into the target type"
        | some e =>
            match p.prove {} e with
            | .ok report => answerJson 200 report.toJson
            | .error error => answerJson 400 (.record [("error", .text error.message)])

/-- The answer of a page to one of its methods. -/
def page (p : Prover) (request : Request) : Route → Option Response
  | .health => readOnly (answerJson 200 healthPage)
  | .axioms => readOnly (answerJson 200 (axiomsPage p))
  | .prove => if request.method = "POST" then some (provePage p request) else none
where
  /-- A page that can only be looked at; a HEAD request does not get the body. -/
  readOnly (response : Response) : Option Response :=
    if request.method = "GET" then some response
    else if request.method = "HEAD" then some { response with body := .empty }
    else none

/-- The answer to a request, before the headers of every answer. -/
def answer (p : Prover) (request : Request) : Response :=
  match Route.ofPath? request.path with
  | none => ⟨404, [], .empty⟩
  | some route => (page p request route).getD ⟨405, [("allow", route.methods)], .empty⟩

/-- Answers a request. -/
def respond (p : Prover) (request : Request) : Response :=
  if request.method = "OPTIONS" then
    let allow := ((Route.ofPath? request.path).map fun route => ("allow", route.methods)).toList
    ⟨200, sharedHeaders ++ [("access-control-allow-methods", "*"),
      ("access-control-allow-headers", "*")] ++ allow, .empty⟩
  else
    let response := answer p request
    { response with
      headers := sharedHeaders ++ [("access-control-expose-headers", "*")] ++ response.headers }

end ThueProver.Service
