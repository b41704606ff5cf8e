import Std.Data.TreeMap
import Std.Data.TreeSet
import ThueProver.RuleBook

/-!
# Call graphs

An edge says that one side of an equation is divisible by the side of a rule that a step would
take away. Edges are found by number: equations that share a number share their edges, the theorem
has number 0 and is no target, and no equation is a target of its own number.
-/
namespace ThueProver

/-- The number of the theorem in a call graph. -/
def theoremId : Nat := 0

structure Edge where
  source : Nat
  relation : Opcode
  target : Nat
  deriving DecidableEq, Repr, Inhabited

namespace Edge

/-- By source, then opcode, then target. -/
abbrev order : Edge → Edge → Ordering :=
  compareLex (compareOn source) (compareLex (compareOn (·.relation.rank)) (compareOn target))

end Edge

/-- The edges in order and, beside them, the opcodes that lead from one number to another. -/
structure CallGraph where
  edges : Std.TreeSet Edge Edge.order := ∅
  opcodes : Std.TreeMap (Nat × Nat) (List Opcode) lexOrd.compare := ∅

namespace CallGraph

/-- A step with `target` could change the side of `source` that `op` names. -/
def relates (source : CodedEquation) (op : Opcode) (target : Rule) : Bool :=
  target.removed op.direction != 0 && source.side op.side % target.removed op.direction == 0

/-- The edges from one equation to one rule, in opcode order. -/
def edgesBetween (id : Nat) (source : CodedEquation) (target : Rule) : List Edge :=
  if target.id == id || target.id == theoremId then []
  else (Opcode.all.filter (relates source · target)).map (⟨id, ·, target.id⟩)

/-- The edges from one equation to all rules. -/
def edgesFrom (rules : List Rule) (id : Nat) (source : CodedEquation) : List Edge :=
  rules.flatMap (edgesBetween id source)

/-- Puts the opcode of an edge behind those that lead from and to the same numbers. -/
def enter (table : Std.TreeMap (Nat × Nat) (List Opcode) lexOrd.compare) (edge : Edge) :
    Std.TreeMap (Nat × Nat) (List Opcode) lexOrd.compare :=
  let ends := (edge.source, edge.target)
  table.insert ends (table.getD ends [] ++ [edge.relation])

/-- Orders edges and lists the opcodes in the order of their edges. -/
def ofEdges (edges : List Edge) : CallGraph :=
  let edges := Std.TreeSet.ofList edges Edge.order
  ⟨edges, edges.toList.foldl enter ∅⟩

/-- The call graph of a theorem and rules. -/
def build (goal : CodedEquation) (rules : List Rule) : CallGraph :=
  .ofEdges (edgesFrom rules theoremId goal ++
    rules.flatMap fun rule => edgesFrom rules rule.id rule.toCodedEquation)

/-- All edges, in order. -/
def toList (graph : CallGraph) : List Edge := graph.edges.toList

def size (graph : CallGraph) : Nat := graph.edges.size

def isEmpty (graph : CallGraph) : Bool := graph.edges.isEmpty

def contains (graph : CallGraph) (edge : Edge) : Bool := graph.edges.contains edge

/-- The opcodes that lead from `source` to `target`, in order. -/
def relations (graph : CallGraph) (source target : Nat) : List Opcode :=
  graph.opcodes.getD (source, target) []

/-- The rules reached from `source`, in increasing order and each once. -/
def targets (graph : CallGraph) (source : Nat) : List Nat :=
  (Std.TreeSet.ofList ((graph.toList.filter (·.source == source)).map (·.target))).toList

end CallGraph

end ThueProver
