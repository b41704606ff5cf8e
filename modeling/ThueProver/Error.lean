import ThueProver.Equation

/-!
# What a prover can refuse

Each error is its cause. A search that ends without a proof is no error: it is reported.
-/
namespace ThueProver

/-- The limits a refusal can name. -/
inductive LimitName where
  | maxFanout
  | maxProofs
  | maxStates
  | maxAxioms
  deriving DecidableEq, Repr

namespace LimitName

def text : LimitName → String
  | maxFanout => "max_fanout"
  | maxProofs => "max_proofs"
  | maxStates => "max_states"
  | maxAxioms => "max_axioms"

end LimitName

/-- Why a text is no natural number. -/
inductive DigitFault where
  | empty
  | invalid
  deriving DecidableEq, Repr

namespace DigitFault

def text : DigitFault → String
  | empty => "cannot parse integer from empty string"
  | invalid => "invalid digit found in string"

end DigitFault

/-- The equation an error is about: the axiom of a given number or the theorem to prove. -/
inductive Subject where
  | axiomNumber (id : Nat)
  | theoremToProve
  deriving DecidableEq, Repr

namespace Subject

def text : Subject → String
  | axiomNumber id => s!"Axiom_{id}"
  | theoremToProve => "theorem"

end Subject

inductive ProofError where
  | malformed (subject : Subject) (side : Side) (flaw : Equation.Flaw)
  | unknownRule (id : Nat)
  | sessionNotFound (id : Nat)
  | invalidSessionId (text : String) (fault : DigitFault)
  | unreadableSnapshot
  | uncoveredSymbols
  /-- A limit of zero under which no search could make progress. -/
  | unusableLimit (name : LimitName)
  | tooManyAxioms (allowed given : Nat)
  | noRoomForAxiom (allowed given : Nat)
  deriving DecidableEq, Repr

/-- A limit that stood in the way, what was asked of it and what to do about it. -/
structure LimitNotice where
  name : LimitName
  allowed : Nat
  actual : Nat
  advice : String
  deriving DecidableEq, Repr

namespace ProofError

def limitNotice? : ProofError → Option LimitNotice
  | unusableLimit name => some ⟨name, 1, 0, s!"Set {name.text} to at least 1"⟩
  | tooManyAxioms allowed given =>
      some ⟨.maxAxioms, allowed, given, s!"Split the rule set or raise max_axioms above {given}"⟩
  | noRoomForAxiom allowed given =>
      some ⟨.maxAxioms, allowed, given, "Raise max_axioms to add more rules"⟩
  | _ => none

def flawText : Equation.Flaw → String
  | .noTokens => "must contain at least one token"
  | .emptyToken => "contains an empty token"

/-- The error in one line. -/
def message (error : ProofError) : String :=
  match error.limitNotice? with
  | some notice =>
      s!"Resource limit exceeded: {notice.name.text} (limit: {notice.allowed}, " ++
        s!"actual: {notice.actual}). {notice.advice}"
  | none =>
      match error with
      | malformed subject side flaw =>
          s!"Malformed {subject.text}: {side.describe} {flawText flaw}"
      | unknownRule id => s!"Unknown rule: Axiom_{id}"
      | sessionNotFound id => s!"Session not found: {id}"
      | invalidSessionId text fault =>
          s!"Snapshot error: Invalid session id '{text}': {fault.text}"
      | uncoveredSymbols =>
          "Snapshot error: symbol table does not cover every token of the session"
      | _ => "Snapshot error: not the JSON text of a session"

/-- The error as the command line shows it: a limit takes four lines, all else one. -/
def notice (error : ProofError) : String :=
  match error.limitNotice? with
  | some notice =>
      s!"Resource limit exceeded: {notice.name.text}\n  Limit: {notice.allowed}\n" ++
        s!"  Actual: {notice.actual}\n  {notice.advice}"
  | none => error.message

end ProofError

namespace Equation

/-- Accepts a usable equation and names the first flaw of any other. -/
def check (e : Equation) (subject : Subject) : Except ProofError Unit :=
  match e.flaw? with
  | none => .ok ()
  | some (side, flaw) => .error (.malformed subject side flaw)

end Equation

end ThueProver
