/-!
# JSON values and their compact text

The values this library writes: there are no fractions and no negative numbers. A record keeps its
members in the order in which they are written. The text has no blanks, and a string escapes the
quote, the backslash and the control characters only.
-/
namespace ThueProver

inductive Json where
  | null
  | flag (value : Bool)
  | number (value : Nat)
  | text (value : String)
  | list (items : List Json)
  | record (members : List (String × Json))
  deriving Inhabited, Repr

namespace Json

def openBrace : Char := '\x7b'

def closeBrace : Char := '\x7d'

/-- The digit of value `n < 16`. -/
def hexDigit (n : Nat) : Char :=
  if n < 10 then Char.ofNat ('0'.toNat + n) else Char.ofNat ('a'.toNat + (n - 10))

/-- One character as it stands inside a quoted string. -/
def escaped (c : Char) : List Char :=
  if c = '"' then ['\\', '"']
  else if c = '\\' then ['\\', '\\']
  else if c = '\n' then ['\\', 'n']
  else if c = '\r' then ['\\', 'r']
  else if c = '\t' then ['\\', 't']
  else if c = '\x08' then ['\\', 'b']
  else if c = '\x0c' then ['\\', 'f']
  else if c.toNat < 0x20 then ['\\', 'u', '0', '0', hexDigit (c.toNat / 16), hexDigit (c.toNat % 16)]
  else [c]

def quoted (s : String) : List Char :=
  '"' :: (s.toList.flatMap escaped ++ ['"'])

mutual

/-- The characters of the compact text. -/
def chars : Json → List Char
  | null => ['n', 'u', 'l', 'l']
  | flag true => ['t', 'r', 'u', 'e']
  | flag false => ['f', 'a', 'l', 's', 'e']
  | number n => Nat.toDigits 10 n
  | text s => quoted s
  | list items => '[' :: (itemChars items ++ [']'])
  | record members => openBrace :: (memberChars members ++ [closeBrace])

/-- Items with commas between them. -/
def itemChars : List Json → List Char
  | [] => []
  | [v] => chars v
  | v :: w :: rest => chars v ++ ',' :: itemChars (w :: rest)

/-- Members with commas between them. -/
def memberChars : List (String × Json) → List Char
  | [] => []
  | [(name, v)] => quoted name ++ ':' :: chars v
  | (name, v) :: m :: rest => quoted name ++ ':' :: (chars v ++ ',' :: memberChars (m :: rest))

end

def render (v : Json) : String := String.ofList v.chars

/-- A list of strings. -/
def texts (items : List String) : Json := list (items.map text)

end Json

end ThueProver
