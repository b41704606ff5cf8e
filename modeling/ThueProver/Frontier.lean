import Std.Data.TreeMap
import Std.Data.TreeSet
import ThueProver.Limits
import ThueProver.Rule

/-!
# The frontier of a search

The states still to be taken up, and the pairs of products met so far. A pair enters the frontier
once: a state whose pair has been met before is a duplicate, whatever proof it carries. States are
ranked, and the least rank is taken up first; among equal pairs the earlier arrival goes first.
-/
namespace ThueProver

/-- The place of a pending state. Under breadth-first order the products do not count and are
entered as zero. -/
structure Rank where
  left : Nat
  right : Nat
  arrival : Nat
  deriving DecidableEq, Repr, Inhabited

namespace Rank

/-- Larger products first, the left one counting first, then earlier arrivals. -/
abbrev order : Rank → Rank → Ordering :=
  compareLex (fun a b => compareOn left b a)
    (compareLex (fun a b => compareOn right b a) (compareOn arrival))

end Rank

/-- Pairs of products, by the left one and then by the right one. -/
abbrev pairOrder : Nat × Nat → Nat × Nat → Ordering :=
  compareLex (compareOn (·.1)) (compareOn (·.2))

structure Frontier where
  order : FrontierOrder := .largestFirst
  waiting : Std.TreeMap Rank State Rank.order := ∅
  seen : Std.TreeSet (Nat × Nat) pairOrder := ∅
  /-- The number of states that have entered. -/
  arrivals : Nat := 0
  deriving Inhabited

namespace Frontier

/-- What became of a batch of states. -/
structure PushCount where
  pushed : Nat := 0
  duplicates : Nat := 0
  deriving DecidableEq, Repr, Inhabited

def size (f : Frontier) : Nat := f.waiting.size

def isEmpty (f : Frontier) : Bool := f.waiting.isEmpty

def rank (f : Frontier) (s : State) : Rank :=
  match f.order with
  | .largestFirst => ⟨s.left, s.right, f.arrivals⟩
  | .breadthFirst => ⟨0, 0, f.arrivals⟩

/-- Lets a state enter, whether its pair has been met or not. -/
def enter (f : Frontier) (s : State) : Frontier :=
  { f with
    waiting := f.waiting.insert (f.rank s) s
    seen := f.seen.insert s.key
    arrivals := f.arrivals + 1 }

/-- Lets a state enter unless its pair has been met; tells whether it did. -/
def push (f : Frontier) (s : State) : Bool × Frontier :=
  if f.seen.contains s.key then (false, f) else (true, f.enter s)

/-- Pushes the states of a batch in turn. -/
def pushAll (f : Frontier) : List State → PushCount × Frontier
  | [] => ({}, f)
  | s :: rest =>
      let (new, f) := f.push s
      let (count, f) := f.pushAll rest
      if new then ({ count with pushed := count.pushed + 1 }, f)
      else ({ count with duplicates := count.duplicates + 1 }, f)

/-- The state to take up next, and the frontier without it. -/
def pop? (f : Frontier) : Option (State × Frontier) :=
  match f.waiting.minEntry? with
  | none => none
  | some (rank, s) => some (s, { f with waiting := f.waiting.erase rank })

/-- The pending states in the order of their arrival. -/
def pending (f : Frontier) : List State :=
  (Std.TreeMap.ofList (f.waiting.toList.map fun (rank, s) => (rank.arrival, s))).values

/-- The pairs met so far, in increasing order. -/
def visited (f : Frontier) : List (Nat × Nat) := f.seen.toList

/-- The frontier with these states pending in this order, repeated pairs included, and these pairs
met besides. -/
def restore (order : FrontierOrder) (pending : List State) (visited : List (Nat × Nat)) :
    Frontier :=
  let entered := pending.foldl enter { order }
  { entered with seen := entered.seen.insertMany visited }

/-- All pending states in the order in which they would be taken up. -/
def drain (f : Frontier) : List State := f.waiting.values

end Frontier

end ThueProver
