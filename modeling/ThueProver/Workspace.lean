import ThueProver.RuleFile

/-!
# Workspaces

A workspace is a directory tree. A walk visits a directory before its entries, and the entries in
the order of the bytes of their names. Whatever the walk visits under a name with the extension
`rules` is read as a rule file; a directory of such a name cannot be read.
-/
namespace ThueProver

/-- A file or a directory. -/
inductive Entry where
  | file (bytes : ByteArray)
  | directory (entries : List (String × Entry))
  deriving Inhabited

namespace Entry

def isDirectory : Entry → Bool
  | file _ => false
  | directory _ => true

/-- What a directory holds. -/
def entries : Entry → List (String × Entry)
  | file _ => []
  | directory entries => entries

/-- Puts an entry at a path and makes the directories on the way. A directory put where there is
one already changes nothing. -/
def put (entry : Entry) : (path : List String) → (tree : Entry) → Entry
  | [], tree => if tree.isDirectory && entry.isDirectory then tree else entry
  | name :: path, tree =>
      let old := (tree.entries.lookup name).getD (directory [])
      directory (tree.entries.filter (·.1 != name) ++ [(name, entry.put path old)])

/-- The entry at a path; two dots go back to the directory above. -/
def find? : (above : List Entry) → (path : List String) → (tree : Entry) → Option Entry
  | _, [], tree => some tree
  | above, name :: path, tree =>
      if !tree.isDirectory then none
      else if name = ".." then
        match above with
        | [] => none
        | parent :: above => find? above path parent
      else
        match tree.entries.lookup name with
        | none => none
        | some entry => find? (tree :: above) path entry

end Entry

namespace Workspace

/-- The names on a path; a dot and a doubled slash name nothing. -/
def components (path : String) : List String :=
  ((Text.splitWhere (· == '/') path.toList).map String.ofList).filter fun name =>
    name != "" && name != "."

/-- The directory at a path, seen from the top of a tree. A path that starts with a slash leads out
of the tree. -/
def directory? (tree : Entry) (path : String) : Option Entry :=
  if path.startsWith "/" then none
  else (Entry.find? [] (components path) tree).filter (·.isDirectory)

/-- The path of an entry of the directory at `path`. -/
def join (path name : String) : String :=
  if path.endsWith "/" then path ++ name else path ++ "/" ++ name

/-- What follows the last dot of a name. A dot in front of the name does not count. -/
def extension? (name : String) : Option String :=
  let reversed := name.toList.reverse
  match reversed.dropWhile (· != '.') with
  | _ :: _ :: _ => some (String.ofList (reversed.takeWhile (· != '.')).reverse)
  | _ => none

def isRuleFileName (name : String) : Bool := extension? name == some "rules"

/-- Something a walk visits; a directory has no bytes. -/
structure Visit where
  path : String
  name : String
  bytes : Option ByteArray

/-- Inserts a named value among others in the order of names. -/
def insertByName {α : Type} (item : String × α) : List (String × α) → List (String × α)
  | [] => [item]
  | other :: rest =>
      if other.1 < item.1 then other :: insertByName item rest else item :: other :: rest

/-- Named values in the order of names. Code points have the order of their bytes. -/
def sortByName {α : Type} (items : List (String × α)) : List (String × α) :=
  items.foldr insertByName []

mutual

/-- The visits of a walk through an entry. -/
def walk (path name : String) : Entry → List Visit
  | .file bytes => [⟨path, name, some bytes⟩]
  | .directory entries =>
      ⟨path, name, none⟩ :: (sortByName (walks path entries)).flatMap (·.2)

/-- The walks through the entries of the directory at `path`, by name. -/
def walks (path : String) : List (String × Entry) → List (String × List Visit)
  | [] => []
  | (name, entry) :: rest => (name, walk (join path name) name entry) :: walks path rest

end

/-- Why a workspace cannot be loaded. -/
inductive LoadError where
  | notFound (path : String)
  | notText
  | isDirectory
  | badRule (error : RuleFile.Error)
  deriving DecidableEq, Repr

/-- The number of rule files, and their axioms in turn. -/
structure Contents where
  fileCount : Nat := 0
  axioms : List Equation := []
  deriving DecidableEq, Repr, Inhabited

/-- The axioms of one rule file. -/
def readVisit (visit : Visit) : Except LoadError (List Equation) :=
  match visit.bytes with
  | none => .error .isDirectory
  | some bytes =>
      match String.fromUTF8? bytes with
      | none => .error .notText
      | some text =>
          match RuleFile.parse visit.path text with
          | .error error => .error (.badRule error)
          | .ok axioms => .ok axioms

/-- Reads rule files in turn, up to the first error. -/
def readVisits : List Visit → Except LoadError Contents
  | [] => .ok {}
  | visit :: rest =>
      match readVisit visit with
      | .error error => .error error
      | .ok axioms =>
          (readVisits rest).map fun more => ⟨more.fileCount + 1, axioms ++ more.axioms⟩

/-- Loads a workspace from the directory found at a path, if there is one. -/
def load (root : Option Entry) (path : String) : Except LoadError Contents :=
  match root with
  | none => .error (.notFound path)
  | some root =>
      let name := (components path).getLast?.getD ""
      readVisits ((walk path name root).filter (isRuleFileName ·.name))

end Workspace

end ThueProver
