/-!
# Equations between token sequences

A token is an opaque string; brackets and operators are tokens like any other. An equation is
usable when both sides hold at least one token and no token is the empty string.
-/
namespace ThueProver

abbrev Token := String

inductive Side where
  | left
  | right
  deriving DecidableEq, Repr, Inhabited

namespace Side

def describe : Side → String
  | left => "left-hand side"
  | right => "right-hand side"

end Side

/-- Two token sequences claimed to be equal, in the orientation they were entered. -/
structure Equation where
  left : List Token
  right : List Token
  deriving DecidableEq, Repr, Inhabited

namespace Equation

def exchange (e : Equation) : Equation := ⟨e.right, e.left⟩

def side (e : Equation) : Side → List Token
  | .left => e.left
  | .right => e.right

def setSide (e : Equation) : Side → List Token → Equation
  | .left, tokens => ⟨tokens, e.right⟩
  | .right, tokens => ⟨e.left, tokens⟩

/-- What can be wrong with one side. -/
inductive Flaw where
  | noTokens
  | emptyToken
  deriving DecidableEq, Repr

/-- The first flaw: missing tokens on either side come before empty tokens on either side. -/
def flaw? (e : Equation) : Option (Side × Flaw) :=
  if e.left.isEmpty then some (.left, .noTokens)
  else if e.right.isEmpty then some (.right, .noTokens)
  else if e.left.any (·.isEmpty) then some (.left, .emptyToken)
  else if e.right.any (·.isEmpty) then some (.right, .emptyToken)
  else none

/-- The sides as text, tokens separated by one space. -/
def text (e : Equation) : String :=
  " ".intercalate e.left ++ " = " ++ " ".intercalate e.right

end Equation

end ThueProver
