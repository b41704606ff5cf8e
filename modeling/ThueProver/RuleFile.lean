import ThueProver.Equation
import ThueProver.Text.Blank

/-!
# Rule files

One axiom on a line, written as tokens, an equals sign and tokens. Tokens are separated by blanks,
what follows a hash sign is a comment, and lines without tokens count for nothing. The first
line that is no axiom is an error, with the bytes at fault.
-/
namespace ThueProver.RuleFile

open Text

/-- Why a line is no equation. -/
inductive Fault where
  | missingEquals
  | secondEquals
  | leftEmpty
  | rightEmpty
  deriving DecidableEq, Repr, Inhabited

namespace Fault

def message : Fault → String
  | missingEquals => "Expected `=` between the two sides"
  | secondEquals => "An equation has exactly one `=`"
  | leftEmpty => "Left-hand side is empty"
  | rightEmpty => "Right-hand side is empty"

def suggestion? : Fault → Option String
  | missingEquals => some "Write the axiom as `lhs tokens = rhs tokens`"
  | secondEquals => some "Put each axiom on its own line"
  | leftEmpty | rightEmpty => none

end Fault

/-- A fault and the bytes it is about, `stop` excluded. -/
structure LineError where
  fault : Fault
  start : Nat
  stop : Nat
  deriving DecidableEq, Repr, Inhabited

structure Error where
  source : String
  line : Nat
  fault : Fault
  start : Nat
  stop : Nat
  deriving DecidableEq, Repr, Inhabited

namespace Error

/-- The error in one line. -/
def message (e : Error) : String := s!"{e.source}:{e.line}: {e.fault.message}"

/-- The headline of the error on a terminal, cut off where the name of the source has a newline. -/
def title (e : Error) : String :=
  let text := s!"Error: Parse error: {e.fault.message} (file {e.source}:{e.line})"
  String.ofList (firstLine text.toList)

end Error

def tokens (cs : List Char) : List Token := (words cs).map String.ofList

/-- Reads one equation. A missing equals sign is about the line without the blanks around it, a
second one about itself, and an empty side about the blank part and the equals sign. -/
def readLine (cs : List Char) : Except LineError Equation :=
  let start := byteLength (cs.takeWhile isBlank)
  let stop := byteLength (trimEnd cs)
  match cs.span (· != '=') with
  | (_, []) => .error ⟨.missingEquals, start, max stop start⟩
  | (left, equals :: right) =>
      let place := byteLength left
      if right.contains '=' then
        let second := place + byteLength (equals :: right.takeWhile (· != '='))
        .error ⟨.secondEquals, second, second + 1⟩
      else if (words left).isEmpty then .error ⟨.leftEmpty, start, place + 1⟩
      else if (words right).isEmpty then .error ⟨.rightEmpty, place, max stop (place + 1)⟩
      else .ok ⟨tokens left, tokens right⟩

/-- The part of a line before a comment. -/
def content (line : List Char) : List Char := line.takeWhile (· != '#')

/-- Reads lines, the first of which has the given number and starts at the given byte. -/
def readLines (source : String) : (number offset : Nat) → List (List Char) →
    Except Error (List Equation)
  | _, _, [] => .ok []
  | number, offset, line :: rest =>
      let next := readLines source (number + 1) (offset + byteLength line + 1) rest
      if (content line).all isBlank then next
      else
        match readLine (content line) with
        | .ok e => next.map (e :: ·)
        | .error e => .error ⟨source, number, e.fault, offset + e.start, offset + e.stop⟩

/-- Reads the axioms of a file. -/
def parse (source text : String) : Except Error (List Equation) :=
  readLines source 1 0 (lines text.toList)

/-- Reads a text that is one equation, such as a theorem; it has no comments. -/
def parseEquation (source text : String) : Except Error Equation :=
  match readLine text.toList with
  | .ok e => .ok e
  | .error e => .error ⟨source, 1, e.fault, e.start, e.stop⟩

end ThueProver.RuleFile
