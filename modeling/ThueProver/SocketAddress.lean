import ThueProver.Text.Blank
import ThueProver.Word

/-!
# Socket addresses as text

An address is four decimal numbers with points between them, or up to eight hexadecimal groups with
colons between them inside square brackets, followed by a colon and a port.
-/
namespace ThueProver.SocketAddress

open Text

def decimal (cs : List Char) : Nat := cs.foldl (fun n c => n * 10 + (c.toNat - '0'.toNat)) 0

/-- A number below 256 without a leading zero. -/
def isOctet (cs : List Char) : Bool :=
  !cs.isEmpty && cs.length ≤ 3 && cs.all Char.isDigit && decimal cs < 256 &&
    (cs.length == 1 || cs.head? != some '0')

/-- Four octets with points between them. -/
def isFourOctets (cs : List Char) : Bool :=
  let octets := splitWhere (· == '.') cs
  octets.length == 4 && octets.all isOctet

def isHex (c : Char) : Bool := c.isDigit || ('a' ≤ c && c ≤ 'f') || ('A' ≤ c && c ≤ 'F')

def isGroup (cs : List Char) : Bool := !cs.isEmpty && cs.length ≤ 4 && cs.all isHex

/-- The number of groups in a run of groups with colons between them; four octets may stand for
the last two. An empty run has none, and a run that is wrong has no number. -/
def groupCount? (cs : List Char) : Option Nat :=
  if cs.isEmpty then some 0
  else
    let groups := splitWhere (· == ':') cs
    let front := groups.dropLast
    match groups.getLast? with
    | none => some 0
    | some last =>
        if !front.all isGroup then none
        else if isGroup last then some groups.length
        else if isFourOctets last then some (groups.length + 1)
        else none

/-- The text before and after the first doubled colon. -/
def splitGap : List Char → Option (List Char × List Char)
  | ':' :: ':' :: rest => some ([], rest)
  | c :: rest => (splitGap rest).map fun (front, back) => (c :: front, back)
  | [] => none

/-- Eight groups, or fewer with one gap among them. -/
def isGroups (cs : List Char) : Bool :=
  match splitGap cs with
  | none => groupCount? cs == some 8
  | some (front, back) =>
      match groupCount? front, groupCount? back with
      | some a, some b => a + b < 8 && !front.contains '.'
      | _, _ => false

/-- A whole number below 2^32 after a percent sign, or nothing. -/
def isScope : List Char → Bool
  | [] => true
  | '%' :: digits => !digits.isEmpty && digits.all Char.isDigit && decimal digits < digitBound
  | _ => false

/-- Whether a host can stand before a colon and a port. -/
def isHost (host : String) : Bool :=
  match host.toList with
  | '[' :: rest =>
      match rest.reverse with
      | ']' :: inside =>
          let inside := inside.reverse
          isGroups (inside.takeWhile (· != '%')) && isScope (inside.dropWhile (· != '%'))
      | _ => false
  | cs => isFourOctets cs

end ThueProver.SocketAddress
