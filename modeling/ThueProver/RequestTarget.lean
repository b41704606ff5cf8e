import ThueProver.Text.Blank

/-!
# Targets of requests

A request names its target by a path, by a full address of scheme, authority, path and query, by an
authority alone, or by an asterisk. Only the path decides which page answers. A fragment is cut
off and nothing is decoded.
-/
namespace ThueProver.RequestTarget

open Text

/-- Characters of a path. Some that should be encoded are let through. -/
def isPathChar (c : Char) : Bool :=
  c == '!' || c == '"' || within 0x24 0x3b c || c == '=' || within 0x40 0x5f c ||
    within 0x61 0x7f c || 0x80 ≤ c.toNat

/-- Characters of a query. -/
def isQueryChar (c : Char) : Bool :=
  c == '!' || within 0x24 0x3b c || c == '=' || 0x3f ≤ c.toNat

/-- Characters of an authority that have no other meaning in it. -/
def isPlainChar (c : Char) : Bool := c.isAlphanum || "!$&'()*+,-.;=_~".toList.contains c

def isSchemeChar (c : Char) : Bool := c.isAlphanum || c == '+' || c == '-' || c == '.'

/-- The path of a text that holds nothing but a path and a query. -/
def pathOf? (cs : List Char) : Option (List Char) :=
  let path := cs.takeWhile fun c => c != '?' && c != '#'
  let query :=
    match cs.dropWhile fun c => c != '?' && c != '#' with
    | '?' :: rest => rest.takeWhile (· != '#')
    | _ => []
  if path.all isPathChar && query.all isQueryChar then some path else none

/-- What has been seen of an authority. -/
structure Scan where
  /-- Colons that could stand before a port. -/
  colons : Nat := 0
  opened : Bool := false
  closed : Bool := false
  percent : Bool := false
  /-- The last character was an at sign. -/
  atSign : Bool := false
  deriving DecidableEq, Repr, Inhabited

namespace Scan

/-- Brackets are closed, there is one port at most, and a host follows the name of a user. -/
def isComplete (s : Scan) : Bool :=
  s.opened == s.closed && s.colons ≤ 1 && !s.percent && !s.atSign

/-- One more character. Colons and percent signs before a closing bracket or an at sign belong to an
address or to the name of a user and do not count. -/
def next? (s : Scan) (c : Char) : Option Scan :=
  if c = ':' then
    if s.colons < 8 then some { s with colons := s.colons + 1, atSign := false } else none
  else if c = '[' then
    if s.percent || s.opened then none else some { s with opened := true, atSign := false }
  else if c = ']' then
    if !s.opened || s.closed then none
    else some { s with closed := true, colons := 0, percent := false, atSign := false }
  else if c = '@' then some { s with colons := 0, percent := false, atSign := true }
  else if c = '%' then some { s with percent := true, atSign := false }
  else if isPlainChar c then some { s with atSign := false }
  else none

end Scan

/-- What follows an authority, which ends before a path, a query or a fragment. -/
def afterAuthority? (s : Scan) : List Char → Option (List Char)
  | [] => if s.isComplete then some [] else none
  | c :: rest =>
      if c = '/' || c = '?' || c = '#' then if s.isComplete then some (c :: rest) else none
      else
        match s.next? c with
        | none => none
        | some s => afterAuthority? s rest

/-- What follows a scheme and the mark behind it. -/
def afterScheme? (cs : List Char) : Option (List Char) :=
  match cs.dropWhile isSchemeChar with
  | ':' :: '/' :: '/' :: rest =>
      if (cs.takeWhile isSchemeChar).length ≤ 64 then some rest else none
  | _ => none

/-- The path of an address without its scheme. The authority is not empty, and a missing path is a
slash. -/
def addressPath? (cs : List Char) : Option (List Char) :=
  match afterAuthority? {} cs with
  | none => none
  | some rest =>
      if rest.length = cs.length then none
      else (pathOf? rest).map fun path => if path.isEmpty then ['/'] else path

/-- The greatest number of bytes in a target. -/
def maxLength : Nat := 65534

/-- The path of a target; an authority alone has an empty one. -/
def path? (target : String) : Option String :=
  let cs := target.toList
  let path :=
    if cs.isEmpty || maxLength < byteLength cs then none
    else if cs = ['*'] then some cs
    else if cs.head? = some '/' then pathOf? cs
    else
      match afterScheme? cs with
      | some rest => addressPath? rest
      | none => if afterAuthority? {} cs = some [] then some [] else none
  path.map String.ofList

end ThueProver.RequestTarget
