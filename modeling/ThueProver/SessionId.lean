import ThueProver.Error
import ThueProver.Text.Blank

/-!
# Session numbers as text

Blanks around a number are ignored. A plus sign may stand in front, and underscores may stand
anywhere but in front.
-/
namespace ThueProver.SessionId

/-- Without a plus sign in front, unless two stand there. -/
def dropPlus : List Char → List Char
  | '+' :: '+' :: rest => '+' :: '+' :: rest
  | '+' :: rest => rest
  | cs => cs

/-- The value of digits with underscores among them. -/
def digits? (n : Nat) : List Char → Option Nat
  | [] => some n
  | c :: rest =>
      if c = '_' then digits? n rest
      else if c.isDigit then digits? (n * 10 + (c.toNat - '0'.toNat)) rest
      else none

def parse (text : String) : Except ProofError Nat :=
  match dropPlus (Text.trim text.toList) with
  | [] => .error (.invalidSessionId text .empty)
  | c :: rest =>
      match if c = '_' then none else digits? 0 (c :: rest) with
      | some id => .ok id
      | none => .error (.invalidSessionId text .invalid)

end ThueProver.SessionId
