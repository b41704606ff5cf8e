import ThueProver.Json.Text

/-!
# Reading JSON by schema

A schema says what is to be read, and reading yields a value of that shape. A record is written
with its members in any order, with other members between them, or as the list of its members'
values in the order of the schema. A member may be left out only if it is optional, and no member
may stand twice. A word of a fixed choice is a string, or a record with that one member, which is
null.
-/
namespace ThueProver

open JsonText

mutual

inductive Schema where
  | flag
  /-- A whole number below the bound. -/
  | natural (bound : Nat)
  | text
  | word (choices : List String)
  | list (item : Schema)
  | pair (first second : Schema)
  | optional (inner : Schema)
  | record (fields : Fields)

inductive Fields where
  | nil
  | cons (name : String) (schema : Schema) (rest : Fields)

end

namespace Fields

def ofList : List (String × Schema) → Fields
  | [] => nil
  | (name, schema) :: rest => cons name schema (ofList rest)

def names : Fields → List String
  | nil => []
  | cons name _ rest => name :: rest.names

/-- The members found, in the order of the schema. -/
def collect (found : List (String × Json)) : Fields → Except Fault (List (String × Json))
  | nil => .ok []
  | cons name schema rest =>
      match found.lookup name, schema with
      | some v, _ => (rest.collect found).map ((name, v) :: ·)
      | none, .optional _ => (rest.collect found).map ((name, .null) :: ·)
      | none, _ => .error .mistyped

end Fields

namespace JsonText

/-- Items up to the closing bracket. Each item takes one unit of `fuel`. -/
def readItems (item : List Char → Reading Json) : (fuel : Nat) → List Char → Reading (List Json)
  | 0, _ => .error .malformed
  | fuel + 1, cs =>
      match item cs with
      | .error fault => .error fault
      | .ok (v, rest) =>
          match skipBlanks rest with
          | ']' :: rest => .ok ([v], rest)
          | ',' :: rest => (readItems item fuel rest).map fun (vs, rest) => (v :: vs, rest)
          | _ => .error .malformed

/-- A list after its opening bracket. -/
def readList (item : List Char → Reading Json) (fuel : Nat) (cs : List Char) :
    Reading (List Json) :=
  match skipBlanks cs with
  | ']' :: rest => .ok ([], rest)
  | rest => readItems item fuel rest

/-- A list of fixed length after its opening bracket or its first items. -/
def readFixed : (first : Bool) → List (List Char → Reading Json) → List Char →
    Except Fault (List Json × List Char)
  | _, [], cs => (expectMark ']' cs).map ([], ·)
  | first, item :: items, cs =>
      match skipBlanks cs with
      | ']' :: _ => .error .mistyped
      | rest => do
          let rest ← if first then pure rest else expect [','] rest
          let (v, rest) ← item rest
          let (vs, rest) ← readFixed false items rest
          return (v :: vs, rest)

/-- Members up to the closing brace, added to those found before. -/
def readMembers (fields : List (String × (List Char → Reading Json))) :
    (fuel : Nat) → (found : List (String × Json)) → List Char →
    Except Fault (List (String × Json) × List Char)
  | 0, _, _ => .error .malformed
  | fuel + 1, found, cs => do
      let rest ← expectMark '"' cs
      let (name, rest) ← readString rest
      let name := String.ofList name
      let (found, rest) ←
        match fields.lookup name with
        | some item =>
            if (found.lookup name).isSome then throw .mistyped
            else do
              let rest ← expectMark ':' rest
              let (v, rest) ← item rest
              pure (found ++ [(name, v)], rest)
        | none => do
            let rest ← expectMark ':' rest
            let rest ← skipValue fuel rest
            pure (found, rest)
      match skipBlanks rest with
      | '\x7d' :: rest => return (found, rest)
      | ',' :: rest => readMembers fields fuel found rest
      | _ => throw .malformed

/-- A string that is one of a choice, after its opening quote. -/
def readWord (choices : List String) (cs : List Char) : Except Fault (Json × List Char) := do
  let (word, rest) ← readString cs
  let word := String.ofList word
  if choices.contains word then return (.text word, rest)
  throw .mistyped

/-- A null. -/
def readNull (cs : List Char) : Except Fault (List Char) :=
  match skipBlanks cs with
  | 'n' :: rest => expect ['u', 'l', 'l'] rest
  | rest => .error (mismatch rest)

end JsonText

mutual

/-- Reads a value of a shape. Items and members take one unit of `fuel` each. -/
def Schema.read (fuel : Nat) : Schema → List Char → Except Fault (Json × List Char)
  | .flag, cs =>
      match skipBlanks cs with
      | 't' :: rest => (expect ['r', 'u', 'e'] rest).map (.flag true, ·)
      | 'f' :: rest => (expect ['a', 'l', 's', 'e'] rest).map (.flag false, ·)
      | rest => .error (mismatch rest)
  | .natural bound, cs =>
      let rest := skipBlanks cs
      if startsNumber rest then (readNatural bound rest).map fun (n, rest) => (.number n, rest)
      else .error (mismatch rest)
  | .text, cs =>
      match skipBlanks cs with
      | '"' :: rest => (readString rest).map fun (s, rest) => (.text (String.ofList s), rest)
      | rest => .error (mismatch rest)
  | .word choices, cs =>
      match skipBlanks cs with
      | '"' :: rest => readWord choices rest
      | '\x7b' :: rest =>
          match skipBlanks rest with
          | '"' :: rest => do
              let (word, rest) ← readWord choices rest
              let rest ← expectMark ':' rest
              let rest ← readNull rest
              let rest ← expectMark '\x7d' rest
              return (word, rest)
          | rest => .error (mismatch rest)
      | _ => .error .malformed
  | .list item, cs =>
      match skipBlanks cs with
      | '[' :: rest =>
          (readList (item.read fuel) fuel rest).map fun (items, rest) => (.list items, rest)
      | rest => .error (mismatch rest)
  | .pair first second, cs =>
      match skipBlanks cs with
      | '[' :: rest =>
          (readFixed true [first.read fuel, second.read fuel] rest).map
            fun (items, rest) => (.list items, rest)
      | rest => .error (mismatch rest)
  | .optional inner, cs =>
      match skipBlanks cs with
      | 'n' :: rest => (expect ['u', 'l', 'l'] rest).map (.null, ·)
      | rest => inner.read fuel rest
  | .record fields, cs =>
      match skipBlanks cs with
      | '[' :: rest =>
          (readFixed true ((fields.readers fuel).map (·.2)) rest).map
            fun (items, rest) => (.record (fields.names.zip items), rest)
      | '\x7b' :: rest =>
          match skipBlanks rest with
          | '\x7d' :: rest => (fields.collect []).map fun members => (.record members, rest)
          | rest => do
              let (found, rest) ← readMembers (fields.readers fuel) fuel [] rest
              let members ← fields.collect found
              return (.record members, rest)
      | rest => .error (mismatch rest)

/-- The readers of the members by name. -/
def Fields.readers (fuel : Nat) : Fields → List (String × (List Char → Reading Json))
  | .nil => []
  | .cons name schema rest => (name, schema.read fuel) :: rest.readers fuel

end

namespace Schema

/-- Reads the value a text starts with; what follows it is not looked at. -/
def readFirst (schema : Schema) (text : String) : Except Fault Json :=
  (schema.read (text.length + 1) text.toList).map (·.1)

/-- Reads a text that is one value. -/
def readWhole (schema : Schema) (text : String) : Except Fault Json := do
  let (v, rest) ← schema.read (text.length + 1) text.toList
  if (skipBlanks rest).isEmpty then return v
  throw .malformed

end Schema

end ThueProver
