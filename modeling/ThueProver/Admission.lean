import ThueProver.Word

/-!
# Admission control

A worker counts the branches it has been admitted to and has not released yet. A request is
admitted while the count stays below a ceiling, and is otherwise refused and dropped, never queued.
The weight of a request is the number of branches about to be explored: admission bounds fan-out,
not depth. All gates of a worker share its count; a gate and its copies share one tally of
refusals.

A worker that shares its batches out to helpers does not decide the order in which they come back.
That order is given with the worker, for every expansion anew.
-/
namespace ThueProver

/-- One thread of work and the branches admitted on it. -/
structure Worker where
  inFlight : Nat := 0
  /-- The moment at which each batch of an expansion comes back, if it is shared out. Expansions
  are told apart by the number of states that were taken up. -/
  arrival : (popped batch : Nat) → Nat := fun _ _ => 0
  deriving Inhabited

namespace Worker

/-- Takes up `weight` branches if they stay below `ceiling`. -/
def acquire? (worker : Worker) (ceiling weight : Nat) : Option Worker :=
  if worker.inFlight + weight < ceiling then
    some { worker with inFlight := worker.inFlight + weight }
  else none

def release (worker : Worker) (weight : Nat) : Worker :=
  { worker with inFlight := worker.inFlight - weight }

/-- The order in which the batches of an expansion come back. What comes at one moment stays in
its own order. -/
def order (worker : Worker) (popped batches : Nat) : List Nat :=
  (List.range batches).mergeSort fun a b => worker.arrival popped a ≤ worker.arrival popped b

end Worker

/-- Requests refused and the sum of their weights; the sum is kept modulo 2^64. -/
structure Rejections where
  batches : Nat := 0
  transitions : Nat := 0
  deriving DecidableEq, Repr, Inhabited

namespace Rejections

def record (r : Rejections) (weight : Nat) : Rejections :=
  ⟨r.batches + 1, (r.transitions + weight) % wordBound⟩

end Rejections

/-- A ceiling and the tally its refusals are entered in. -/
structure Gate where
  ceiling : Nat
  tally : Nat
  deriving DecidableEq, Repr, Inhabited

/-- A worker with its gates, their tallies and the guards of admitted requests, oldest first. -/
structure Desk where
  worker : Worker := {}
  gates : List Gate := []
  tallies : List Rejections := []
  guards : List Nat := []
  deriving Inhabited

namespace Desk

/-- One gate for each ceiling, each with a tally of its own. -/
def ofCeilings (ceilings : List Nat) : Desk where
  gates := ceilings.zipIdx.map fun (ceiling, index) => ⟨ceiling, index⟩
  tallies := ceilings.map fun _ => {}

def rejections (desk : Desk) (gate : Gate) : Rejections := desk.tallies[gate.tally]?.getD {}

def refuse (desk : Desk) (gate : Gate) (weight : Nat) : Desk :=
  { desk with tallies := desk.tallies.modify gate.tally (·.record weight) }

/-- Asks a gate for `weight` branches. -/
def acquire (desk : Desk) (gate : Gate) (weight : Nat) : Bool × Desk :=
  match desk.worker.acquire? gate.ceiling weight with
  | some worker => (true, { desk with worker })
  | none => (false, desk.refuse gate weight)

def release (desk : Desk) (weight : Nat) : Desk :=
  { desk with worker := desk.worker.release weight }

/-- Like `acquire`, and sets up a guard over the admitted weight. -/
def guard (desk : Desk) (gate : Gate) (weight : Nat) : Bool × Desk :=
  match desk.acquire gate weight with
  | (true, desk) => (true, { desk with guards := desk.guards ++ [weight] })
  | (false, desk) => (false, desk)

/-- Lifts the oldest guard, which releases its weight. -/
def dropOldest (desk : Desk) : Option Nat × Desk :=
  match desk.guards with
  | [] => (none, desk)
  | weight :: rest => (some weight, { desk with guards := rest }.release weight)

/-- Lifts the newest guard, which releases its weight. -/
def dropNewest (desk : Desk) : Option Nat × Desk :=
  match desk.guards.getLast? with
  | none => (none, desk)
  | some weight => (some weight, { desk with guards := desk.guards.dropLast }.release weight)

/-- A further gate with the ceiling and the tally of `gate`. -/
def copyGate (desk : Desk) (gate : Gate) : Desk := { desk with gates := desk.gates ++ [gate] }

/-- Asks a copy of a gate on a worker of its own, which nothing has been admitted on. Only a
refusal can be seen here. -/
def acquireElsewhere (desk : Desk) (gate : Gate) (weight : Nat) : (Bool × Worker) × Desk :=
  match Worker.acquire? {} gate.ceiling weight with
  | some worker => ((true, worker), desk)
  | none => ((false, {}), desk.refuse gate weight)

end Desk

end ThueProver
