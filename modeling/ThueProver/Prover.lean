import ThueProver.Snapshot

/-!
# Provers

A prover holds the axioms and their codebook. A proof attempt works on a copy of both, so attempts
do not see each other and changes of the axioms do not reach a session. Suspended sessions are
written out, kept under increasing numbers from 1 and handed out once.
-/
namespace ThueProver

structure Prover where
  codes : Codebook := {}
  book : RuleBook := {}
  limits : Limits := {}
  suspended : List (Nat × String) := []
  nextSession : Nat := 1
  deriving Inhabited

namespace Prover

/-- Replaces the axioms and starts the codebook anew; an error leaves the prover as it was. -/
def setAxioms (p : Prover) (axioms : List Equation) : Except ProofError Prover :=
  if p.limits.maxAxioms < axioms.length then
    .error (.tooManyAxioms p.limits.maxAxioms axioms.length)
  else (RuleBook.ofEquations {} axioms).map fun (book, codes) => { p with book, codes }

/-- Appends one axiom and returns its number. -/
def addAxiom (p : Prover) (e : Equation) : Except ProofError (Nat × Prover) :=
  if p.limits.maxAxioms ≤ p.book.size then
    .error (.noRoomForAxiom p.limits.maxAxioms (p.book.size + 1))
  else (p.book.add p.codes e).map fun (book, codes) => (p.book.nextId, { p with book, codes })

/-- Begins a proof attempt. -/
def start (p : Prover) (e : Equation) : Except ProofError Session := do
  p.limits.check
  let context ← Context.prepare p.codes p.book e p.limits.useCallGraph
  return { search := .start context p.limits }

/-- Searches for a proof and checks it. -/
def prove (p : Prover) (worker : Worker) (e : Equation) : Except ProofError Report :=
  match p.start e with
  | .error error => .error error
  | .ok session => (session.run worker).2.2

/-- The call graph of a theorem and the axioms. -/
def callGraph (p : Prover) (e : Equation) : Except ProofError CallGraph :=
  (p.codes.codeTheorem e).map fun (goal, _) => .build goal p.book.rules

/-- Writes a session out and returns its number. -/
def suspend (p : Prover) (s : Session) : Nat × Prover :=
  (p.nextSession, { p with
    suspended := (p.nextSession, s.snapshot.render) :: p.suspended
    nextSession := p.nextSession + 1 })

def hasSession (p : Prover) (id : Nat) : Bool := (p.suspended.lookup id).isSome

/-- Takes a suspended session out again. It is gone afterwards, even if its text cannot be read or
the session in it cannot go on. -/
def resume (p : Prover) (id : Nat) : Except ProofError Session × Prover :=
  match p.suspended.lookup id with
  | none => (.error (.sessionNotFound id), p)
  | some text =>
      (Session.ofText text, { p with suspended := p.suspended.filter (·.1 != id) })

end Prover

end ThueProver
