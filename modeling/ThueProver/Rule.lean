import ThueProver.Codebook
import ThueProver.Error

/-!
# Rules and steps

A coded equation carries the products of its sides beside the tokens, and the side with the larger
product is stored on the left. A rule is a coded axiom with a number. It can be read in two
directions, and either side of the theorem can be changed: that makes four opcodes.
-/
namespace ThueProver

/-- Reducing replaces the stored left side of a rule by its right side; expanding goes back. -/
inductive Direction where
  | reduce
  | expand
  deriving DecidableEq, Repr, Inhabited

/-- Which side of the theorem is changed, and in which direction the rule is read. -/
structure Opcode where
  side : Side
  direction : Direction
  deriving DecidableEq, Repr, Inhabited

namespace Opcode

/-- All opcodes, in their order. -/
def all : List Opcode :=
  [⟨.left, .reduce⟩, ⟨.left, .expand⟩, ⟨.right, .reduce⟩, ⟨.right, .expand⟩]

/-- The place of an opcode in `all`. -/
def rank : Opcode → Nat
  | ⟨.left, .reduce⟩ => 0
  | ⟨.left, .expand⟩ => 1
  | ⟨.right, .reduce⟩ => 2
  | ⟨.right, .expand⟩ => 3

def name : Opcode → String
  | ⟨.left, .reduce⟩ => "lhs_reduce"
  | ⟨.left, .expand⟩ => "lhs_expand"
  | ⟨.right, .reduce⟩ => "rhs_reduce"
  | ⟨.right, .expand⟩ => "rhs_expand"

def ofName? (text : String) : Option Opcode := all.find? (·.name == text)

end Opcode

/-- One application of a rule. -/
structure Step where
  opcode : Opcode
  rule : Nat
  deriving DecidableEq, Repr, Inhabited

namespace Step

def text (step : Step) : String := s!"{step.opcode.name} via Axiom_{step.rule}"

end Step

/-- An equation with the products of its sides. `swapped` says that the stored sides are those
entered, exchanged. -/
structure CodedEquation where
  left : Nat
  right : Nat
  tokens : Equation
  swapped : Bool := false
  deriving DecidableEq, Repr, Inhabited

namespace CodedEquation

def exchange (e : CodedEquation) : CodedEquation :=
  ⟨e.right, e.left, e.tokens.exchange, !e.swapped⟩

def isCanonical (e : CodedEquation) : Bool := e.right ≤ e.left

/-- The larger product on the left; equal products stay as they are. -/
def canonical (e : CodedEquation) : CodedEquation := if e.isCanonical then e else e.exchange

/-- The equation in the orientation it was entered. -/
def entered (e : CodedEquation) : Equation := if e.swapped then e.tokens.exchange else e.tokens

def side (e : CodedEquation) : Side → Nat
  | .left => e.left
  | .right => e.right

/-- The product a step in this direction takes away. -/
def removed (e : CodedEquation) : Direction → Nat
  | .reduce => e.left
  | .expand => e.right

/-- The product a step in this direction puts in its place. -/
def inserted (e : CodedEquation) : Direction → Nat
  | .reduce => e.right
  | .expand => e.left

def pattern (e : CodedEquation) : Direction → List Token
  | .reduce => e.tokens.left
  | .expand => e.tokens.right

def replacement (e : CodedEquation) : Direction → List Token
  | .reduce => e.tokens.right
  | .expand => e.tokens.left

end CodedEquation

namespace Codebook

/-- Encodes the left side, then the right one, and stores the larger product on the left. -/
def code (book : Codebook) (e : Equation) : CodedEquation × Codebook :=
  let (left, book) := book.encode e.left
  let (right, book) := book.encode e.right
  (CodedEquation.canonical ⟨left, right, e, false⟩, book)

/-- The theorem to prove, coded. -/
def codeTheorem (book : Codebook) (e : Equation) : Except ProofError (CodedEquation × Codebook) :=
  (e.check .theoremToProve).map fun _ => book.code e

end Codebook

structure Rule extends CodedEquation where
  id : Nat
  deriving DecidableEq, Repr, Inhabited

/-- A node of the search: the products of both sides and the steps that led to them. -/
structure State where
  left : Nat
  right : Nat
  proof : List Step := []
  deriving DecidableEq, Repr, Inhabited

namespace State

/-- Where the proof of a theorem starts. -/
def root (goal : CodedEquation) : State := ⟨goal.left, goal.right, []⟩

/-- Both sides hold the same multiset of tokens. -/
def isTerminal (s : State) : Bool := s.left == s.right

/-- States are visited once for each pair of products. -/
def key (s : State) : Nat × Nat := (s.left, s.right)

def side (s : State) : Side → Nat
  | .left => s.left
  | .right => s.right

def setSide (s : State) : Side → Nat → State
  | .left, product => { s with left := product }
  | .right, product => { s with right := product }

/-- The product to take away is not zero and divides the side to change. -/
def admits (s : State) (op : Opcode) (rule : Rule) : Bool :=
  rule.removed op.direction != 0 && s.side op.side % rule.removed op.direction == 0

/-- The state after one step, if its rule applies. -/
def move? (s : State) (op : Opcode) (rule : Rule) : Option State :=
  if s.admits op rule then
    let product := s.side op.side / rule.removed op.direction * rule.inserted op.direction
    some { s.setSide op.side product with proof := s.proof ++ [⟨op, rule.id⟩] }
  else none

end State

end ThueProver
