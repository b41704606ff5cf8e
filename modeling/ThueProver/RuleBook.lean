import ThueProver.Rule

/-!
# Rule books

The axioms in the order they were entered, numbered from 1 by a counter of the book. A batch is
checked as a whole before any of it is coded, so a refused axiom leaves book and codebook as they
were.
-/
namespace ThueProver

structure RuleBook where
  rules : List Rule := []
  nextId : Nat := 1
  deriving DecidableEq, Repr, Inhabited

namespace RuleBook

def size (book : RuleBook) : Nat := book.rules.length

/-- The rule of a number; numbers are dense from 1. -/
def get? (book : RuleBook) : Nat → Option Rule
  | 0 => none
  | index + 1 => (book.rules[index]?).filter (·.id == index + 1)

/-- Codes one more axiom under the next number. -/
def append (book : RuleBook) (codes : Codebook) (e : Equation) : RuleBook × Codebook :=
  let (coded, codes) := codes.code e
  ({ rules := book.rules ++ [⟨coded, book.nextId⟩], nextId := book.nextId + 1 }, codes)

/-- Codes the axioms of a list in turn. -/
def appendAll (book : RuleBook) (codes : Codebook) : List Equation → RuleBook × Codebook
  | [] => (book, codes)
  | e :: rest =>
      let (book, codes) := book.append codes e
      book.appendAll codes rest

/-- Adds a usable axiom. -/
def add (book : RuleBook) (codes : Codebook) (e : Equation) :
    Except ProofError (RuleBook × Codebook) :=
  (e.check (.axiomNumber book.nextId)).map fun _ => book.append codes e

/-- Checks the axioms of a list, the first of which has number `id`. -/
def checkAll : (id : Nat) → List Equation → Except ProofError Unit
  | _, [] => .ok ()
  | id, e :: rest =>
      match e.check (.axiomNumber id) with
      | .error error => .error error
      | .ok () => checkAll (id + 1) rest

/-- The book of a list of usable axioms, coded with `codes`. -/
def ofEquations (codes : Codebook) (axioms : List Equation) :
    Except ProofError (RuleBook × Codebook) :=
  (checkAll 1 axioms).map fun _ => appendAll {} codes axioms

end RuleBook

end ThueProver
