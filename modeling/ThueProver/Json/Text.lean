import ThueProver.Json.Value
import ThueProver.Word

/-!
# The words of a JSON text

Strings, numbers and values to be passed over, read from the front of a list of characters. A text
can be wrong in two ways: it is malformed if it is no JSON at all, and mistyped if it is JSON of
another shape than the one asked for. Reading stops at the first of either.
-/
namespace ThueProver.JsonText

inductive Fault where
  | malformed
  | mistyped
  deriving DecidableEq, Repr, Inhabited

/-- A value from the front of a text and what follows it. -/
abbrev Reading (α : Type) := Except Fault (α × List Char)

def isBlank (c : Char) : Bool := c == ' ' || c == '\t' || c == '\n' || c == '\r'

def skipBlanks (cs : List Char) : List Char := cs.dropWhile isBlank

/-- Passes over letters that have to come next. -/
def expect (letters : List Char) (cs : List Char) : Except Fault (List Char) :=
  if letters.isPrefixOf cs then .ok (cs.drop letters.length) else .error .malformed

/-- Passes over a mark that has to come next, blanks apart. -/
def expectMark (mark : Char) (cs : List Char) : Except Fault (List Char) :=
  expect [mark] (skipBlanks cs)

def hexValue? (c : Char) : Option Nat :=
  if c.isDigit then some (c.toNat - '0'.toNat)
  else if 'a' ≤ c && c ≤ 'f' then some (c.toNat - 'a'.toNat + 10)
  else if 'A' ≤ c && c ≤ 'F' then some (c.toNat - 'A'.toNat + 10)
  else none

/-- The value of four hexadecimal digits. -/
def unit? (a b c d : Char) : Option Nat := do
  return (((← hexValue? a) * 16 + (← hexValue? b)) * 16 + (← hexValue? c)) * 16 + (← hexValue? d)

/-- The first half of a pair of units. -/
def isHighUnit (u : Nat) : Bool := 0xD800 ≤ u && u ≤ 0xDBFF

/-- The second half of a pair of units. -/
def isLowUnit (u : Nat) : Bool := 0xDC00 ≤ u && u ≤ 0xDFFF

/-- The character that a pair of units stands for. -/
def paired (high low : Nat) : Char :=
  Char.ofNat (0x10000 + (high - 0xD800) * 0x400 + (low - 0xDC00))

/-- The character that a letter after a backslash stands for. -/
def unescape? (c : Char) : Option Char :=
  if c = '"' || c = '\\' || c = '/' then some c
  else if c = 'n' then some '\n'
  else if c = 'r' then some '\r'
  else if c = 't' then some '\t'
  else if c = 'b' then some '\x08'
  else if c = 'f' then some '\x0c'
  else none

/-- A string after its opening quote. A unit that is half of a pair has to stand in the pair. -/
def readString : List Char → Reading (List Char)
  | [] => .error .malformed
  | '"' :: rest => .ok ([], rest)
  | '\\' :: 'u' :: a :: b :: c :: d :: rest =>
      match unit? a b c d with
      | none => .error .malformed
      | some u =>
          if isLowUnit u then .error .malformed
          else if isHighUnit u then
            match rest with
            | '\\' :: 'u' :: e :: f :: g :: h :: rest =>
                match unit? e f g h with
                | none => .error .malformed
                | some v =>
                    if isLowUnit v then
                      (readString rest).map fun (cs, rest) => (paired u v :: cs, rest)
                    else .error .malformed
            | _ => .error .malformed
          else (readString rest).map fun (cs, rest) => (Char.ofNat u :: cs, rest)
  | '\\' :: c :: rest =>
      match unescape? c with
      | none => .error .malformed
      | some c => (readString rest).map fun (cs, rest) => (c :: cs, rest)
  | c :: rest =>
      if c.toNat < 0x20 then .error .malformed
      else (readString rest).map fun (cs, rest) => (c :: cs, rest)

/-- Passes over a string after its opening quote. Units need not stand in pairs here. -/
def skipString : List Char → Except Fault (List Char)
  | [] => .error .malformed
  | '"' :: rest => .ok rest
  | '\\' :: 'u' :: a :: b :: c :: d :: rest =>
      if (unit? a b c d).isSome then skipString rest else .error .malformed
  | '\\' :: c :: rest => if (unescape? c).isSome then skipString rest else .error .malformed
  | c :: rest => if c.toNat < 0x20 then .error .malformed else skipString rest

/-- An unsigned number: its leading digits, as many as a 64-bit word can hold, the power of ten they
are multiplied by, and whether they are all of a whole number. -/
structure Numeral where
  digits : Nat
  scale : Int
  whole : Bool
  deriving DecidableEq, Repr

def digitValue (c : Char) : Nat := c.toNat - '0'.toNat

def digitsValue (cs : List Char) : Nat := cs.foldl (fun n c => n * 10 + digitValue c) 0

/-- Appends digits to a number up to the first that a word cannot hold, and returns what is left. -/
def appendDigits (n : Nat) : List Char → Nat × List Char
  | [] => (n, [])
  | c :: rest =>
      if n * 10 + digitValue c < wordBound then appendDigits (n * 10 + digitValue c) rest
      else (n, c :: rest)

/-- The digits in front of a text, at least one. -/
def readDigits (cs : List Char) : Reading (List Char) :=
  let digits := cs.takeWhile Char.isDigit
  if digits.isEmpty then .error .malformed else .ok (digits, cs.dropWhile Char.isDigit)

/-- The digits after a point, if there is one. -/
def readFraction : List Char → Reading (Option (List Char))
  | '.' :: rest => (readDigits rest).map fun (digits, rest) => (some digits, rest)
  | cs => .ok (none, cs)

/-- The digits of an exponent after its sign. -/
def readExponentDigits (sign : Int) (cs : List Char) : Reading (Option Int) :=
  (readDigits cs).map fun (digits, rest) => (some (sign * digitsValue digits), rest)

/-- The exponent, if there is one. -/
def readExponent : List Char → Reading (Option Int)
  | c :: rest =>
      if c = 'e' || c = 'E' then
        match rest with
        | '+' :: rest => readExponentDigits 1 rest
        | '-' :: rest => readExponentDigits (-1) rest
        | rest => readExponentDigits 1 rest
      else .ok (none, c :: rest)
  | [] => .ok (none, [])

/-- A number after its sign. A leading zero stands alone. -/
def readNumeral (cs : List Char) : Except Fault (Numeral × List Char) := do
  let (whole, rest) ← readDigits cs
  if whole.length > 1 && whole.head? == some '0' then throw .malformed
  let (fraction, rest) ← readFraction rest
  let (exponent, rest) ← readExponent rest
  let decimals := fraction.getD []
  let (digits, leftWhole) := appendDigits 0 whole
  let (digits, leftDecimals) := appendDigits digits decimals
  return ({
    digits
    scale := exponent.getD 0 + leftWhole.length + leftDecimals.length - decimals.length
    whole := fraction.isNone && exponent.isNone && leftWhole.isEmpty }, rest)

namespace Numeral

/-- The nearest number with a significand of 53 bits, and of two such numbers the one whose
significand is even. -/
def nearest (n : Nat) : Nat :=
  let unit := Nat.pow 2 (n.log2 - 52)
  let quotient := n / unit
  let rest := n % unit
  if unit < 2 * rest || (unit == 2 * rest && quotient % 2 == 1) then (quotient + 1) * unit
  else quotient * unit

/-- Half a unit above the largest double: from here on the nearest double is infinite. -/
def ceiling : Nat := Nat.pow 2 1024 - Nat.pow 2 970

/-- Too large for a double. The digits and the power of ten are rounded to doubles, and so is their
product; a power of ten above `10 ^ 308` is itself too large. -/
def overflows (n : Numeral) : Bool :=
  n.digits != 0 && (308 < n.scale || (0 ≤ n.scale &&
    ceiling ≤ nearest n.digits * nearest (Nat.pow 10 n.scale.toNat)))

end Numeral

/-- A number of either sign; the sign is told apart by the flag. -/
def readSigned : List Char → Reading (Bool × Numeral)
  | '-' :: rest => (readNumeral rest).map fun (n, rest) => ((true, n), rest)
  | cs => (readNumeral cs).map fun (n, rest) => ((false, n), rest)

/-- A whole number without sign below `bound`. A number too large for a double is malformed, any
other number is mistyped. -/
def readNatural (bound : Nat) (cs : List Char) : Except Fault (Nat × List Char) := do
  let ((negative, n), rest) ← readSigned cs
  if n.overflows then throw .malformed
  if n.whole && !negative && n.digits < bound then return (n.digits, rest)
  throw .mistyped

/-- A text that starts a number. -/
def startsNumber : List Char → Bool
  | c :: _ => c == '-' || c.isDigit
  | [] => false

/-- The fault of a value of another kind than the one asked for. The first word of the value is
read to see whether it is one; lists and records are not looked into. -/
def mismatch : List Char → Fault
  | '"' :: rest =>
      match readString rest with
      | .ok _ => .mistyped
      | .error fault => fault
  | 'n' :: rest => if ['u', 'l', 'l'].isPrefixOf rest then .mistyped else .malformed
  | 't' :: rest => if ['r', 'u', 'e'].isPrefixOf rest then .mistyped else .malformed
  | 'f' :: rest => if ['a', 'l', 's', 'e'].isPrefixOf rest then .mistyped else .malformed
  | '[' :: _ => .mistyped
  | '\x7b' :: _ => .mistyped
  | cs =>
      if startsNumber cs then
        match readNatural 0 cs with
        | .ok _ => .mistyped
        | .error fault => fault
      else .malformed

mutual

/-- Passes over any value. Each nested value and each item takes one unit of `fuel`, so the length
of the text is enough. -/
def skipValue : (fuel : Nat) → List Char → Except Fault (List Char)
  | 0, _ => .error .malformed
  | fuel + 1, cs =>
      match skipBlanks cs with
      | 'n' :: rest => expect ['u', 'l', 'l'] rest
      | 't' :: rest => expect ['r', 'u', 'e'] rest
      | 'f' :: rest => expect ['a', 'l', 's', 'e'] rest
      | '"' :: rest => skipString rest
      | '[' :: rest =>
          match skipBlanks rest with
          | ']' :: rest => .ok rest
          | rest => skipItems fuel rest
      | '\x7b' :: rest =>
          match skipBlanks rest with
          | '\x7d' :: rest => .ok rest
          | rest => skipMembers fuel rest
      | rest => (readSigned rest).map (·.2)

/-- Passes over items up to the closing bracket. -/
def skipItems : (fuel : Nat) → List Char → Except Fault (List Char)
  | 0, _ => .error .malformed
  | fuel + 1, cs =>
      match skipValue fuel cs with
      | .error fault => .error fault
      | .ok rest =>
          match skipBlanks rest with
          | ']' :: rest => .ok rest
          | ',' :: rest => skipItems fuel rest
          | _ => .error .malformed

/-- Passes over members up to the closing brace. -/
def skipMembers : (fuel : Nat) → List Char → Except Fault (List Char)
  | 0, _ => .error .malformed
  | fuel + 1, cs =>
      match expectMark '"' cs >>= skipString >>= expectMark ':' >>= skipValue fuel with
      | .error fault => .error fault
      | .ok rest =>
          match skipBlanks rest with
          | '\x7d' :: rest => .ok rest
          | ',' :: rest => skipMembers fuel rest
          | _ => .error .malformed

end

end ThueProver.JsonText
