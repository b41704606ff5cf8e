import ThueProver.Text.Emoji

/-!
# Width of a text

The number of columns a text takes on a terminal. It is the sum of the columns of its characters,
except where characters are drawn together: emoji with a style, a skin tone, a flag or a joiner,
quotation marks of full width, and a few ligatures of Arabic, Hebrew, Khmer, Buginese, Tifinagh,
Lisu, Old Turkic and Kirat Rai. Whether a character is drawn together with what follows is known
only from what follows, so a text is measured from its end to its start.
-/
namespace ThueProver.Text

/-- Letters that can be drawn together with a character in front of them. Joiners and invisible
marks may stand between the two. -/
inductive Link where
  | lamed
  | ya
  /-- The vowel i joined to the letter ya. -/
  | iYa
  /-- A Tifinagh consonant. -/
  | consonant
  /-- A Tifinagh consonant behind the consonant joiner. -/
  | joinedConsonant
  | toneLetter
  | orkhonI
  /-- A Khmer letter with a subscript form. -/
  | subscriptLetter
  deriving DecidableEq, Repr

/-- What a text begins with, as far as a character in front of it can be drawn together with it. -/
inductive Beginning where
  | plain
  | skinTone
  | flagLetter
  /-- Two flag letters or more. -/
  | flagLetters
  | emoji
  /-- A joiner with an emoji behind it. -/
  | joinedEmoji
  /-- A keycap in front of `joinedEmoji`. -/
  | joinedKeycap
  /-- Flag letters in front of `joinedEmoji`, an even number of them or an odd one. -/
  | joinedFlags (even : Bool)
  /-- A number of tag letters in front of the tag that ends a flag of a region. -/
  | tagLetters (count : Nat)
  /-- A number of tag digits in front of those. -/
  | tagDigits (count : Nat)
  | alef
  | link (letter : Link) (joined : Bool)
  | kiratE
  | kiratAi
  deriving DecidableEq, Repr

/-- The style that a variation selector asks of the character in front of it. -/
inductive Style where
  | emoji
  | text
  /-- Full width, for quotation marks. -/
  | wide
  deriving DecidableEq, Repr

/-- What stands behind a character. -/
structure Behind where
  beginning : Beginning := .plain
  style : Option Style := none
  deriving DecidableEq, Repr, Inhabited

namespace Beginning

/-- A variation selector in front of a letter with ligatures does not part it from them. -/
def isLetter : Beginning → Bool
  | alef | link _ _ => true
  | _ => false

/-- An emoji in front is drawn together with one behind a joiner. -/
def isJoined : Beginning → Bool
  | joinedEmoji | joinedKeycap => true
  | _ => false

/-- What is left when a variation selector stands in front. -/
def keepLetter (b : Beginning) : Beginning := if b.isLetter then b else plain

end Beginning

def joiner : Char := '\u200d'

/-- Marks that cannot be seen. -/
def isHiddenMark (c : Char) : Bool :=
  inRanges c.toNat [(0x34f, 0x34f), (0x17b4, 0x17b5), (0x180b, 0x180d), (0x180f, 0x180f),
    (0xfe00, 0xfe0f), (0xe0100, 0xe01ef)]

/-- Ranges of the characters without width that part Arabic letters. -/
def partingRanges : List (Nat × Nat) :=
  [(0x605, 0x605), (0x890, 0x891), (0x8e2, 0x8e2), (0x9be, 0x9be), (0x9d7, 0x9d7), (0xb3e, 0xb3e),
   (0xb57, 0xb57), (0xbbe, 0xbbe), (0xbd7, 0xbd7), (0xcc0, 0xcc0), (0xcc2, 0xcc2), (0xcc7, 0xcc8),
   (0xcca, 0xccb), (0xcd5, 0xcd6), (0xd3e, 0xd3e), (0xd4e, 0xd4e), (0xd57, 0xd57), (0xdcf, 0xdcf),
   (0xddf, 0xddf), (0x1160, 0x11ff), (0x1715, 0x1715), (0x1734, 0x1734), (0x180e, 0x180e),
   (0x1b35, 0x1b35), (0x1b3b, 0x1b3b), (0x1b3d, 0x1b3d), (0x1b43, 0x1b44), (0x1baa, 0x1baa),
   (0x1bf2, 0x1bf3), (0x200c, 0x200d), (0x2065, 0x2069), (0x302e, 0x302f), (0x3164, 0x3164),
   (0xa8fa, 0xa8fa), (0xa953, 0xa953), (0xa9c0, 0xa9c0), (0xd7b0, 0xd7c6), (0xd7cb, 0xd7fb),
   (0xffa0, 0xffa0), (0xfff0, 0xfff8), (0x111c0, 0x111c0), (0x111c2, 0x111c3), (0x11235, 0x11235),
   (0x1133e, 0x1133e), (0x1134d, 0x1134d), (0x11357, 0x11357), (0x113b8, 0x113b8),
   (0x113c2, 0x113c2), (0x113c5, 0x113c5), (0x113c7, 0x113c9), (0x113cf, 0x113cf),
   (0x113d1, 0x113d1), (0x114b0, 0x114b0), (0x114bd, 0x114bd), (0x115af, 0x115af),
   (0x116b6, 0x116b6), (0x11930, 0x11930), (0x1193d, 0x1193d), (0x1193f, 0x1193f),
   (0x11941, 0x11941), (0x11a84, 0x11a89), (0x11d46, 0x11d46), (0x11f02, 0x11f02),
   (0x11f41, 0x11f41), (0x16ff0, 0x16ff1), (0x1d165, 0x1d166), (0x1d16d, 0x1d172),
   (0xe0000, 0xe0000), (0xe0002, 0xe001f), (0xe0080, 0xe00ff), (0xe01f0, 0xe0fff)]

/-- Characters without width between Arabic letters that are drawn together. -/
def joinsArabic (c : Char) : Bool := columns c == 0 && !inRanges c.toNat partingRanges

def isAlef (c : Char) : Bool :=
  inRanges c.toNat [(0x622, 0x623), (0x625, 0x625), (0x627, 0x627), (0x671, 0x673),
    (0x675, 0x675), (0x773, 0x774), (0x870, 0x882)]

def isLam (c : Char) : Bool :=
  inRanges c.toNat [(0x644, 0x644), (0x6b5, 0x6b8), (0x76a, 0x76a), (0x8a6, 0x8a6), (0x8c7, 0x8c7)]

def hasSubscript (c : Char) : Bool :=
  inRanges c.toNat [(0x1780, 0x1782), (0x1784, 0x1787), (0x1789, 0x178c), (0x178e, 0x1793),
    (0x1795, 0x1798), (0x179b, 0x179d), (0x17a0, 0x17a0), (0x17a2, 0x17a2), (0x17a7, 0x17a7),
    (0x17ab, 0x17ac), (0x17af, 0x17af)]

def isTifinaghConsonant (c : Char) : Bool := within 0x2d31 0x2d65 c || c.toNat == 0x2d6f

def isTagLetter (c : Char) : Bool := within 0xe0061 0xe007a c

def isTagDigit (c : Char) : Bool := within 0xe0030 0xe0039 c

def isQuotationMark (c : Char) : Bool := within 0x2018 0x2019 c || within 0x201c 0x201d c

/-- What a text begins with when it begins with this character. -/
def beginningOf (c : Char) : Beginning :=
  if isEmoji c then .emoji
  else if isSkinTone c then .skinTone
  else if isFlagLetter c then .flagLetter
  else if isAlef c then .alef
  else if hasSubscript c then .link .subscriptLetter false
  else if isTifinaghConsonant c then .link .consonant false
  else if c.toNat = 0x5dc then .link .lamed false
  else if c.toNat = 0x1a10 then .link .ya false
  else if within 0xa4fc 0xa4fd c then .link .toneLetter false
  else if c.toNat = 0x10c03 then .link .orkhonI false
  else if c.toNat = 0x16d67 then .kiratE
  else if c.toNat = 0x16d68 then .kiratAi
  else .plain

/-- What a character adds to the columns of the letter that it is drawn together with. -/
def ligature? (letter : Link) (joined : Bool) (c : Char) : Option (Int × Beginning) :=
  match letter with
  | .lamed => if joined && c.toNat == 0x5d0 then some (0, .plain) else none
  | .ya => if joined && c.toNat == 0x1a17 then some (0, .link .iYa true) else none
  | .iYa => if c.toNat = 0x1a15 then some (0, .plain) else none
  | .consonant =>
      if c.toNat = 0x2d7f then some (1, .link .joinedConsonant true)
      else if joined && isTifinaghConsonant c then some (0, .plain)
      else none
  | .joinedConsonant => if isTifinaghConsonant c then some (-1, .plain) else none
  | .toneLetter => if within 0xa4f8 0xa4fb c then some (0, .plain) else none
  | .orkhonI => if joined && c.toNat == 0x10c32 then some (0, .plain) else none
  | .subscriptLetter => if c.toNat = 0x17d2 then some (-1, .plain) else none

/-- What a character adds if it is drawn together with the text behind it. -/
def joined? (behind : Beginning) (c : Char) : Option (Int × Beginning) :=
  match behind with
  | .plain | .joinedKeycap => none
  | .skinTone =>
      if c = joiner then some (0, .joinedEmoji)
      else if takesSkinTone c then some (0, .emoji)
      else none
  | .flagLetter => if isFlagLetter c then some (1, .flagLetters) else none
  | .flagLetters =>
      if isFlagLetter c then some (1, .flagLetters)
      else if c = joiner then some (0, .joinedEmoji)
      else none
  | .emoji => if c = joiner then some (0, .joinedEmoji) else none
  | .joinedEmoji =>
      if isEmoji c then some (0, .emoji)
      else if isSkinTone c then some (0, .skinTone)
      else if isFlagLetter c then some (1, .joinedFlags false)
      else if c.toNat = 0x20e3 then some (0, .joinedKeycap)
      else if c.toNat = 0xe007f then some (0, .tagLetters 0)
      else none
  | .joinedFlags false => if isFlagLetter c then some (-1, .joinedFlags true) else none
  | .joinedFlags true =>
      if isFlagLetter c then some (3, .joinedFlags false)
      else if c = joiner then some (0, .joinedEmoji)
      else none
  | .tagLetters count =>
      if isTagLetter c && count < 6 then some (0, .tagLetters (count + 1))
      else if isTagDigit c && count ≤ 4 then some (0, .tagDigits 1)
      else if c.toNat == 0x1f3f4 && 3 ≤ count then some (0, .emoji)
      else none
  | .tagDigits count =>
      if isTagDigit c && count < 3 then some (0, .tagDigits (count + 1))
      else if c.toNat == 0x1f3f4 && count == 3 then some (0, .emoji)
      else none
  | .alef =>
      if isLam c then some (0, .plain)
      else if joinsArabic c then some (0, .alef)
      else none
  | .link letter joined =>
      if c = joiner then some (0, .link letter true)
      else if isHiddenMark c then some (0, .link letter joined)
      else ligature? letter joined c
  | .kiratE =>
      if c.toNat = 0x16d63 || c.toNat = 0x16d69 then some (0, .plain)
      else if c.toNat = 0x16d67 then some (0, .kiratAi)
      else if c.toNat = 0x16d68 then some (1, .kiratE)
      else none
  | .kiratAi => if c.toNat = 0x16d63 then some (0, .plain) else none

/-- What a character adds if the style asked of it changes its columns. -/
def styled? (behind : Behind) (c : Char) : Option (Int × Beginning) :=
  match behind.style with
  | none => none
  | some .emoji =>
      if hasStyles c then some (if behind.beginning.isJoined then 0 else 2, .emoji) else none
  | some .text => if hasNarrowStyle c then some (1, .plain) else none
  | some .wide => if isQuotationMark c then some (2, .plain) else none

/-- What stands behind a character, once a style that it does not have is forgotten. -/
def unstyled (behind : Behind) : Beginning :=
  if behind.style.isSome then behind.beginning.keepLetter else behind.beginning

/-- A variation selector takes no column and asks for a style. -/
def selector? (behind : Beginning) (c : Char) : Option Behind :=
  if c.toNat = 0xfe0f then
    some ⟨if behind.isJoined then behind else behind.keepLetter, some .emoji⟩
  else if c.toNat = 0xfe0e then some ⟨behind.keepLetter, some .text⟩
  else if c.toNat = 0xfe01 then some ⟨behind.keepLetter, some .wide⟩
  else none

/-- The columns a character adds in front of a text, and what stands behind the next character. -/
def measure (c : Char) (behind : Behind) : Int × Behind :=
  match styled? behind c with
  | some (added, beginning) => (added, { beginning })
  | none =>
      let rest := unstyled behind
      match selector? rest c with
      | some behind => (0, behind)
      | none =>
          match joined? rest c with
          | some (added, beginning) => (added, { beginning })
          | none => (columns c, { beginning := beginningOf c })

/-- The columns of some characters and what they begin with. -/
def measureAll : List Char → Int × Behind
  | [] => (0, {})
  | c :: cs =>
      let (sum, behind) := measureAll cs
      let (added, behind) := measure c behind
      (sum + added, behind)

/-- The columns of a text. -/
def width (s : String) : Nat := (measureAll s.toList).1.toNat

end ThueProver.Text
