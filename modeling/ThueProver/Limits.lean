import ThueProver.Error

/-!
# Limits of a search

A search is combinatorial and need not end by itself, so it runs under budgets. Spending one is an
outcome of the search, not an error.
-/
namespace ThueProver

/-- The order in which pending states are taken up. -/
inductive FrontierOrder where
  /-- The largest pair of products first, the left product counting first. -/
  | largestFirst
  /-- The order of arrival. -/
  | breadthFirst
  deriving DecidableEq, Repr, Inhabited

namespace FrontierOrder

def all : List FrontierOrder := [largestFirst, breadthFirst]

def name : FrontierOrder → String
  | largestFirst => "largest_first"
  | breadthFirst => "breadth_first"

def ofName? (text : String) : Option FrontierOrder := all.find? (·.name == text)

end FrontierOrder

structure Limits where
  /-- The ceiling of admission control, in branches. -/
  maxFanout : Nat := 4096
  /-- Candidates to examine before the search gives up. -/
  maxProofs : Nat := 8
  /-- States to take up before the search gives up. -/
  maxStates : Nat := 200000
  maxSearchTimeMs : Nat := 10000
  maxAxioms : Nat := 10000
  /-- The number of rules from which on expansions are shared out. Their batches then enter the
  frontier in the order in which they come back. -/
  parallelThreshold : Nat := 64
  frontierOrder : FrontierOrder := .largestFirst
  /-- Whether the root is expanded by the call graph. -/
  useCallGraph : Bool := true
  deriving DecidableEq, Repr, Inhabited

namespace Limits

/-- Refuses limits under which no search could make progress. -/
def check (limits : Limits) : Except ProofError Unit :=
  if limits.maxFanout = 0 then .error (.unusableLimit .maxFanout)
  else if limits.maxProofs = 0 then .error (.unusableLimit .maxProofs)
  else if limits.maxStates = 0 then .error (.unusableLimit .maxStates)
  else .ok ()

end Limits

end ThueProver
