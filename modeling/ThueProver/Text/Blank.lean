/-!
# Characters, words and lines

Blanks are the characters with the Unicode property White_Space. The zero-width space, the
byte-order mark and the information separators are none.
-/
namespace ThueProver.Text

/-- Whether a character lies between two code points. -/
def within (first last : Nat) (c : Char) : Bool := first ≤ c.toNat && c.toNat ≤ last

def isBlank (c : Char) : Bool :=
  ('\t' ≤ c && c ≤ '\r') || c == ' ' || c == '\u0085' || c == '\u00a0' || c == '\u1680' ||
    ('\u2000' ≤ c && c ≤ '\u200a') || c == '\u2028' || c == '\u2029' || c == '\u202f' ||
    c == '\u205f' || c == '\u3000'

/-- Without the blanks at the end. -/
def trimEnd (cs : List Char) : List Char := (cs.reverse.dropWhile isBlank).reverse

/-- Without the blanks at either end. -/
def trim (cs : List Char) : List Char := trimEnd (cs.dropWhile isBlank)

/-- The pieces between the characters that satisfy `mark`; there is one more piece than marks. -/
def splitWhere (mark : Char → Bool) : List Char → List (List Char)
  | [] => [[]]
  | c :: cs =>
      if mark c then [] :: splitWhere mark cs
      else
        match splitWhere mark cs with
        | [] => [[c]]
        | piece :: pieces => (c :: piece) :: pieces

/-- The runs of characters between blanks. -/
def words (cs : List Char) : List (List Char) := (splitWhere isBlank cs).filter (!·.isEmpty)

/-- The pieces between newlines. -/
def lines (cs : List Char) : List (List Char) := splitWhere (· == '\n') cs

/-- The first line of a text. A carriage return before the newline belongs to the newline. -/
def firstLine (cs : List Char) : List Char :=
  match cs.span (· != '\n') with
  | (line, []) => line
  | (line, _) => if line.getLast? = some '\r' then line.dropLast else line

/-- The number of bytes in UTF-8. -/
def byteLength : List Char → Nat
  | [] => 0
  | c :: cs => c.utf8Size + byteLength cs

end ThueProver.Text
