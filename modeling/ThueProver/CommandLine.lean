import ThueProver.Limits
import ThueProver.Word

/-!
# Command lines

A command is named first and takes options and plain arguments in any order. An option has a long
name after two dashes and may have a letter after one; letters can be run together, and the value
of an option follows it or stands after an equals sign. An option is given once at most, a value
that starts with a dash has to be joined to its option, and after two dashes alone everything is a
plain argument.
-/
namespace ThueProver.CommandLine

inductive Command where
  | prove (theoremText directory : String) (raw : Bool) (limits : Limits)
  | graph (theoremText directory : String)
  | list (directory : String)
  | server (directory host : String) (port : Nat)
  deriving DecidableEq, Repr

namespace Command

/-- The directory a command reads. -/
def directory : Command → String
  | prove _ directory _ _ => directory
  | graph _ directory => directory
  | list directory => directory
  | server directory _ _ => directory

end Command

/-- What a command line asks for. -/
inductive Invocation where
  | run (command : Command)
  | version
  | help
  /-- The command line cannot be understood. -/
  | misuse
  deriving DecidableEq, Repr

/-- What has to stand with an option. -/
inductive Operand where
  | nothing
  | text
  /-- A path, which is not empty. -/
  | path
  /-- A whole number below a bound. A signed one may have a minus sign, which only zero can bear. -/
  | number (bound : Nat) (signed : Bool)
  deriving DecidableEq, Repr

structure Flag where
  long : String
  letter : Option Char := none
  operand : Operand := .nothing
  deriving DecidableEq, Repr

def verbose : Flag := ⟨"verbose", some 'v', .nothing⟩

def help : Flag := ⟨"help", some 'h', .nothing⟩

def version : Flag := ⟨"version", some 'V', .nothing⟩

def directory : Flag := ⟨"dir", some 'd', .path⟩

/-- One thing found on a command line. -/
inductive Item where
  | option (long : String) (value : String)
  | argument (text : String)
  /-- Something that cannot be understood; nothing behind it is looked at. -/
  | unknown
  deriving DecidableEq, Repr

/-- The number that digits write, if they are digits and it is below `bound`. -/
def digits? (bound : Nat) (digits : List Char) : Option Nat :=
  let n := digits.foldl (fun n c => n * 10 + (c.toNat - '0'.toNat)) 0
  if !digits.isEmpty && digits.all Char.isDigit && n < bound then some n else none

/-- A whole number below `bound`, with or without a plus sign. -/
def number? (bound : Nat) (signed : Bool) (text : String) : Option Nat :=
  match text.toList with
  | '+' :: rest => digits? bound rest
  | '-' :: rest => if signed then digits? (min bound 1) rest else none
  | cs => digits? bound cs

namespace Operand

/-- Whether a text can stand with the option. -/
def accepts : Operand → String → Bool
  | nothing, _ => false
  | text, _ => true
  | path, value => value != ""
  | number bound signed, value => (number? bound signed value).isSome

end Operand

/-- An option with its value. -/
def Flag.item (flag : Flag) (value : String) : Item :=
  if flag.operand.accepts value then .option flag.long value else .unknown

/-- An argument that can follow an option as its value. -/
def isValue (text : String) : Bool := text = "-" || !text.startsWith "-"

/-- The options among letters run together. The last one may need its value from elsewhere, which
is told by the flag that is left over. -/
def readLetters (flags : List Flag) : List Char → List Item × Option Flag
  | [] => ([], none)
  | c :: rest =>
      match flags.find? (·.letter == some c) with
      | none => ([.unknown], none)
      | some flag =>
          if flag.operand = .nothing then
            let (items, left) := readLetters flags rest
            (.option flag.long "" :: items, left)
          else
            match rest with
            | [] => ([], some flag)
            | '=' :: value => ([flag.item (String.ofList value)], none)
            | value => ([flag.item (String.ofList value)], none)

/-- The option of a long name with what is joined to it. -/
def readLong (flags : List Flag) (text : List Char) : List Item × Option Flag :=
  match flags.find? (·.long.toList == text.takeWhile (· != '=')) with
  | none => ([.unknown], none)
  | some flag =>
      match text.dropWhile (· != '=') with
      | [] => if flag.operand = .nothing then ([.option flag.long ""], none) else ([], some flag)
      | _ :: value => ([flag.item (String.ofList value)], none)

/-- The options in one argument that starts with a dash. -/
def readOptions (flags : List Flag) (text : String) : List Item × Option Flag :=
  match text.toList with
  | '-' :: '-' :: name => readLong flags name
  | cs => readLetters flags (cs.drop 1)

/-- The items of a list of arguments. -/
def readItems (flags : List Flag) : List String → List Item
  | [] => []
  | text :: rest =>
      if text = "--" then rest.map .argument
      else if isValue text then .argument text :: readItems flags rest
      else
        match readOptions flags text, rest with
        | (items, none), rest => items ++ readItems flags rest
        | (items, some _), [] => items ++ [.unknown]
        | (items, some flag), value :: rest =>
            if isValue value then items ++ flag.item value :: readItems flags rest
            else items ++ [.unknown]

/-- The value of an option among some items. -/
def value? (items : List Item) (long : String) : Option String :=
  items.findSome? fun
    | .option name value => if name = long then some value else none
    | _ => none

def isGiven (items : List Item) (long : String) : Bool := (value? items long).isSome

def arguments (items : List Item) : List String :=
  items.filterMap fun
    | .argument text => some text
    | _ => none

/-- The number given with an option, or the one that stands for it. -/
def numberOr (items : List Item) (flag : Flag) (default : Nat) : Nat :=
  match flag.operand, value? items flag.long with
  | .number bound signed, some text => (number? bound signed text).getD default
  | _, _ => default

/-- The directory given, or else the current one. -/
def directoryOf (items : List Item) : String := (value? items directory.long).getD "."

def raw : Flag := ⟨"raw", some 'r', .nothing⟩

def maxFanout : Flag := ⟨"max-fanout", none, .number wordBound false⟩

def maxStates : Flag := ⟨"max-states", none, .number wordBound false⟩

def timeoutMs : Flag := ⟨"timeout-ms", none, .number wordBound false⟩

def breadthFirst : Flag := ⟨"breadth-first", none, .nothing⟩

def host : Flag := ⟨"host", none, .text⟩

def port : Flag := ⟨"port", some 'p', .number portBound true⟩

def proveCommand? (items : List Item) : Option Command := do
  let [theoremText] := arguments items | none
  let base : Limits := {}
  return .prove theoremText (directoryOf items) (isGiven items raw.long) { base with
    maxFanout := numberOr items maxFanout base.maxFanout
    maxStates := numberOr items maxStates base.maxStates
    maxSearchTimeMs := numberOr items timeoutMs base.maxSearchTimeMs
    frontierOrder := if isGiven items breadthFirst.long then .breadthFirst else base.frontierOrder }

def graphCommand? (items : List Item) : Option Command := do
  let [theoremText] := arguments items | none
  return .graph theoremText (directoryOf items)

def listCommand? (items : List Item) : Option Command :=
  match arguments items with
  | [] => some (.list ".")
  | [path] => if path = "" then none else some (.list path)
  | _ => none

def serverCommand? (items : List Item) : Option Command := do
  let [] := arguments items | none
  return .server (directoryOf items) ((value? items host.long).getD "127.0.0.1")
    (numberOr items port 3000)

/-- What a command can be given, and how it is made of its items. -/
structure Form where
  flags : List Flag
  /-- The greatest number of plain arguments. -/
  room : Nat
  build : List Item → Option Command

/-- The form of the command of a name. -/
def form? : String → Option Form
  | "prove" =>
      some ⟨[directory, raw, maxFanout, maxStates, timeoutMs, breadthFirst], 1, proveCommand?⟩
  | "graph" => some ⟨[directory], 1, graphCommand?⟩
  | "list" => some ⟨[], 1, listCommand?⟩
  | "server" => some ⟨[directory, host, port], 0, serverCommand?⟩
  | _ => none

/-- What the items ask for without running a command, looking at them in order: a notice, or
misuse if something is unknown, an option is given twice or there is no `room` for an argument. -/
def interruption? : (room : Nat) → (seen : List String) → List Item → Option Invocation
  | _, _, [] => none
  | _, _, .unknown :: _ => some .misuse
  | 0, _, .argument _ :: _ => some .misuse
  | room + 1, seen, .argument _ :: rest => interruption? room seen rest
  | room, seen, .option name _ :: rest =>
      if name = version.long then some .version
      else if name = help.long then some .help
      else if seen.contains name then some .misuse
      else interruption? room (name :: seen) rest

/-- Help is given on the program or on one of its commands, of which help itself is one. -/
def readHelp : List String → Invocation
  | [] => .help
  | [name] => if (form? name).isSome || name = "help" then .help else .misuse
  | _ => .misuse

/-- Reads the arguments from the name of a command on. -/
def readCommand (name : String) (args : List String) : Invocation :=
  match form? name with
  | none => if name = "help" then readHelp args else .misuse
  | some form =>
      let items := readItems (form.flags ++ [verbose, help]) args
      match interruption? form.room [] items with
      | some invocation => invocation
      | none =>
          match form.build items with
          | none => .misuse
          | some command => .run command

/-- Options come first, then the name of a command and what the command is given. Two dashes alone
leave no place for a command. -/
def read (args : List String) : Invocation :=
  let front := args.takeWhile (!isValue ·)
  match interruption? 0 [] (readItems [verbose, help, version] front) with
  | some invocation => invocation
  | none =>
      match args.dropWhile (!isValue ·) with
      | [] => .misuse
      | name :: args => if front.contains "--" then .misuse else readCommand name args

end ThueProver.CommandLine
