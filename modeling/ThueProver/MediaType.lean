/-!
# Media types

A media type is a type, a slash and a subtype, followed by parameters. What stands behind the last
plus sign of a subtype is its suffix. A parameter is introduced by a semicolon, may have spaces in
front of it and is a name, an equals sign and a value, which is a token or stands in quotes.
-/
namespace ThueProver.MediaType

/-- Characters of types and of the names and plain values of parameters. -/
def isTokenChar (c : Char) : Bool := c.isAlphanum || "!#$%&'*+-.^_|~\x60".toList.contains c

/-- Characters of a value in quotes. -/
def isQuotedChar (c : Char) : Bool := ' ' ≤ c && c != '\x7f'

/-- Characters that a media type can be written with. -/
def isVisible (c : Char) : Bool := (' ' ≤ c && c ≤ '~') || c == '\t'

/-- What follows the closing quote of a value and the semicolon behind it, if there is one. -/
def afterQuoted? : List Char → Option (List Char)
  | [] => some []
  | ' ' :: rest => afterQuoted? rest
  | ';' :: rest => some rest
  | _ => none

/-- What follows a value whose opening quote has been read. Its first character may be a quote. -/
def afterQuote? : List Char → Option (List Char)
  | [] => none
  | c :: rest =>
      if !isQuotedChar c then none
      else
        match rest.dropWhile fun c => isQuotedChar c && c != '"' with
        | '"' :: rest => afterQuoted? rest
        | _ => none

/-- What follows a value and the semicolon behind it. A plain value is empty only at the end. -/
def afterValue? : List Char → Option (List Char)
  | '"' :: rest => afterQuote? rest
  | cs =>
      match cs.dropWhile isTokenChar with
      | [] => some []
      | ';' :: rest => if (cs.takeWhile isTokenChar).isEmpty then none else some rest
      | _ => none

/-- What follows a parameter. -/
def afterParameter? (cs : List Char) : Option (List Char) :=
  if (cs.takeWhile isTokenChar).isEmpty then none
  else
    match cs.dropWhile isTokenChar with
    | '=' :: rest => afterValue? rest
    | _ => none

/-- What follows a semicolon is a list of parameters. Each takes one unit of `fuel`. -/
def areParameters : (fuel : Nat) → List Char → Bool
  | 0, cs => cs.all (· == ' ')
  | fuel + 1, cs =>
      match cs.dropWhile (· == ' ') with
      | [] => true
      | c :: rest =>
          match afterParameter? (c :: rest) with
          | none => false
          | some rest => areParameters fuel rest

/-- The part of a subtype before its last plus sign and the part after it. A plus sign in front
divides nothing. -/
def splitSuffix (subtype : List Char) : List Char × Option (List Char) :=
  let reversed := subtype.reverse
  match reversed.dropWhile (· != '+') with
  | _ :: c :: rest => ((c :: rest).reverse, some (reversed.takeWhile (· != '+')).reverse)
  | _ => (subtype, none)

/-- What follows a subtype: nothing, or a semicolon and parameters. -/
def isTail : List Char → Bool
  | [] => true
  | ';' :: rest => areParameters rest.length rest
  | _ => false

/-- Whether a subtype or its suffix is JSON. -/
def namesJson (subtype : List Char) : Bool :=
  let (name, suffix) := splitSuffix subtype
  name == "json".toList || suffix == some "json".toList

/-- Whether a content type is JSON, in letters of any case. -/
def isJson (contentType : String) : Bool :=
  let cs := contentType.toList.map Char.toLower
  match cs.dropWhile isTokenChar with
  | '/' :: rest =>
      cs.all isVisible && cs.takeWhile isTokenChar == "application".toList &&
        namesJson (rest.takeWhile isTokenChar) && isTail (rest.dropWhile isTokenChar)
  | _ => false

end ThueProver.MediaType
