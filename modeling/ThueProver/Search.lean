import ThueProver.Admission
import ThueProver.CallGraph
import ThueProver.Frontier

/-!
# Search on products

A step takes up one pending state. If its sides have equal products it is a candidate for a proof
and is not expanded. Otherwise all steps that apply to it are asked for at once: either admission
control grants every one of them and the unseen children enter the frontier, or all are dropped.
The children under one rule enter together, as a batch. Over few rules the batches enter rule by
rule; else they are shared out and enter in any order, and the first state to come with a pair is
the one that is kept. Before each step the budgets are looked at, and a search that has stopped
stays stopped.
-/
namespace ThueProver

/-- All that a search reads. -/
structure Context where
  codes : Codebook
  book : RuleBook
  goal : CodedEquation
  graph : Option CallGraph := none

namespace Context

/-- Codes the theorem with a copy of the prover's codebook and, if asked, builds the call graph. -/
def prepare (codes : Codebook) (book : RuleBook) (theoremToProve : Equation) (withGraph : Bool) :
    Except ProofError Context :=
  (codes.codeTheorem theoremToProve).map fun (goal, codes) =>
    { codes, book, goal,
      graph := if withGraph then some (.build goal book.rules) else none }

end Context

/-- Why a search has stopped. -/
inductive StopReason where
  /-- No state is left to take up. -/
  | exhausted
  | cancelled
  | stateBudget
  | timeout
  | proofBudget
  deriving DecidableEq, Repr, Inhabited

namespace StopReason

def name : StopReason → String
  | exhausted => "exhausted"
  | cancelled => "cancelled"
  | stateBudget => "state_budget"
  | timeout => "timeout"
  | proofBudget => "proof_budget"

end StopReason

inductive SearchEvent where
  /-- A state whose sides hold the same multiset of tokens. -/
  | candidate (state : State)
  | stopped (reason : StopReason)
  deriving DecidableEq, Repr, Inhabited

/-- What a search has done so far. -/
structure Stats where
  popped : Nat := 0
  expanded : Nat := 0
  generated : Nat := 0
  duplicates : Nat := 0
  rejectedBatches : Nat := 0
  droppedTransitions : Nat := 0
  candidates : Nat := 0
  deriving DecidableEq, Repr, Inhabited

namespace State

/-- The size in bits of the greatest common divisor of both sides. -/
def sharedBits (s : State) : Nat :=
  let common := Nat.gcd s.left s.right
  if common = 0 then 0 else common.log2 + 1

/-- Shares more than `best`, or as much with a shorter proof. -/
def betters (s best : State) : Bool :=
  best.sharedBits < s.sharedBits ||
    (s.sharedBits == best.sharedBits && s.proof.length < best.proof.length)

end State

/-- The order in which the batches of an expansion enter: over few rules rule by rule, else as
they come back. -/
def Limits.batchOrder (limits : Limits) (rules : Nat) (worker : Worker) (popped batches : Nat) :
    List Nat :=
  if limits.parallelThreshold ≤ rules then worker.order popped batches else List.range batches

structure Search where
  context : Context
  limits : Limits
  frontier : Frontier
  rejections : Rejections := {}
  stats : Stats := {}
  /-- The state taken up so far whose sides share the most. -/
  best : Option State := none
  cancelled : Bool := false
  elapsedMs : Nat := 0
  stopped : Option StopReason := none

namespace Search

/-- A search from the root of its theorem. -/
def start (context : Context) (limits : Limits) : Search where
  context
  limits
  frontier := (Frontier.push { order := limits.frontierOrder } (.root context.goal)).2

/-- A search that goes on from given pending states, pairs met, counts and best state. -/
def restore (context : Context) (limits : Limits) (pending : List State)
    (visited : List (Nat × Nat)) (stats : Stats) (best : Option State) : Search where
  context
  limits
  frontier := .restore limits.frontierOrder pending visited
  stats
  best

/-- The steps that led to the best state. -/
def bestProof (s : Search) : List Step := (s.best.map (·.proof)).getD []

def cancel (s : Search) : Search := { s with cancelled := true }

/-- Withdraws a cancellation that has not been noticed yet. -/
def renew (s : Search) : Search := { s with cancelled := false }

/-- Lets time pass. -/
def wait (s : Search) (ms : Nat) : Search := { s with elapsedMs := s.elapsedMs + ms }

/-- The budget that forbids a further step, cancellation counting first. -/
def spent? (s : Search) : Option StopReason :=
  if s.cancelled then some .cancelled
  else if s.limits.maxProofs ≤ s.stats.candidates then some .proofBudget
  else if s.limits.maxStates ≤ s.stats.popped then some .stateBudget
  else if s.limits.maxSearchTimeMs < s.elapsedMs then some .timeout
  else none

/-- Counts a state that was taken up and keeps it if it is the best so far. -/
def observe (s : Search) (state : State) : Search :=
  { s with
    stats := { s.stats with popped := s.stats.popped + 1 }
    best :=
      match s.best with
      | none => some state
      | some best => if state.betters best then some state else some best }

/-- The opcodes that apply to a state with one rule. The call graph knows them for the root, which
is where the proof is empty. -/
def opcodes (s : Search) (state : State) (rule : Rule) : List Opcode :=
  match s.context.graph with
  | some graph =>
      if state.proof.isEmpty then graph.relations theoremId rule.id
      else Opcode.all.filter (state.admits · rule)
  | none => Opcode.all.filter (state.admits · rule)

/-- The rules that apply to a state, each with its opcodes. -/
def applicable (s : Search) (state : State) : List (Rule × List Opcode) :=
  s.context.book.rules.filterMap fun rule =>
    let ops := s.opcodes state rule
    if ops.isEmpty then none else some (rule, ops)

/-- Drops all steps from a state. -/
def reject (s : Search) (weight : Nat) : Search :=
  { s with
    rejections := s.rejections.record weight
    stats := { s.stats with
      rejectedBatches := s.stats.rejectedBatches + 1
      droppedTransitions := s.stats.droppedTransitions + weight } }

/-- The children of a state under one rule enter the frontier together. -/
def pushChildren (s : Search) (state : State) (move : Rule × List Opcode) : Search :=
  let children := move.2.filterMap (state.move? · move.1)
  let (count, frontier) := s.frontier.pushAll children
  { s with
    frontier
    stats := { s.stats with
      generated := s.stats.generated + children.length
      duplicates := s.stats.duplicates + count.duplicates } }

/-- The moves in the order in which their children enter. -/
def arrange (worker : Worker) (s : Search) (moves : List (Rule × List Opcode)) :
    List (Rule × List Opcode) :=
  (s.limits.batchOrder s.context.book.size worker s.stats.popped moves.length).filterMap
    (moves[·]?)

/-- All children of a state enter the frontier, batch by batch. -/
def grow (worker : Worker) (s : Search) (state : State) (moves : List (Rule × List Opcode)) :
    Search :=
  let counted := { s with stats := { s.stats with expanded := s.stats.expanded + 1 } }
  (s.arrange worker moves).foldl (·.pushChildren state ·) counted

/-- The number of children that some moves will produce. -/
def weight : List (Rule × List Opcode) → Nat
  | [] => 0
  | move :: moves => move.2.length + weight moves

/-- Asks for all moves at once; what was admitted is released when they are done. -/
def request (worker : Worker) (s : Search) (state : State) (moves : List (Rule × List Opcode)) :
    Worker × Search :=
  match worker.acquire? s.limits.maxFanout (weight moves) with
  | none => (worker, s.reject (weight moves))
  | some busy => (busy.release (weight moves), s.grow worker state moves)

/-- A state that no rule applies to asks for nothing. -/
def expand (worker : Worker) (s : Search) (state : State) : Worker × Search :=
  match s.applicable state with
  | [] => (worker, s)
  | move :: moves => s.request worker state (move :: moves)

def countCandidate (s : Search) : Search :=
  { s with stats := { s.stats with candidates := s.stats.candidates + 1 } }

/-- Deals with a state that was taken up. -/
def takeUp (worker : Worker) (s : Search) (state : State) : Worker × Search × Option SearchEvent :=
  if state.isTerminal then (worker, s.countCandidate, some (.candidate state))
  else
    match s.expand worker state with
    | (worker, s) => (worker, s, none)

def stop (s : Search) (reason : StopReason) : Search := { s with stopped := some reason }

/-- One step. There is no event if a state was taken up that is no candidate. -/
def step (worker : Worker) (s : Search) : Worker × Search × Option SearchEvent :=
  match s.stopped.or s.spent? with
  | some reason => (worker, s.stop reason, some (.stopped reason))
  | none =>
      match s.frontier.pop? with
      | none => (worker, s.stop .exhausted, some (.stopped .exhausted))
      | some (state, frontier) => ({ s with frontier }.observe state).takeUp worker state

/-- Steps until the next event, `budget` steps at most. -/
def advance (worker : Worker) (s : Search) : (budget : Nat) → Worker × Search × Option SearchEvent
  | 0 => (worker, s, none)
  | budget + 1 =>
      match s.step worker with
      | (worker, s, some event) => (worker, s, some event)
      | (worker, s, none) => s.advance worker budget

@[simp] theorem observe_limits (s : Search) (state : State) :
    (s.observe state).limits = s.limits := rfl

@[simp] theorem observe_popped (s : Search) (state : State) :
    (s.observe state).stats.popped = s.stats.popped + 1 := rfl

/-- What dealing with a state leaves alone: all that a search reads, what stops it, its best state
and the number of states taken up. -/
structure Keeps (s t : Search) : Prop where
  context : t.context = s.context
  limits : t.limits = s.limits
  best : t.best = s.best
  cancelled : t.cancelled = s.cancelled
  elapsedMs : t.elapsedMs = s.elapsedMs
  stopped : t.stopped = s.stopped
  popped : t.stats.popped = s.stats.popped

theorem Keeps.refl (s : Search) : s.Keeps s := ⟨rfl, rfl, rfl, rfl, rfl, rfl, rfl⟩

theorem Keeps.trans {s t u : Search} (hst : s.Keeps t) (htu : t.Keeps u) : s.Keeps u :=
  ⟨htu.context.trans hst.context, htu.limits.trans hst.limits, htu.best.trans hst.best,
    htu.cancelled.trans hst.cancelled, htu.elapsedMs.trans hst.elapsedMs,
    htu.stopped.trans hst.stopped, htu.popped.trans hst.popped⟩

theorem keeps_pushChildren (s : Search) (state : State) (move : Rule × List Opcode) :
    s.Keeps (s.pushChildren state move) := ⟨rfl, rfl, rfl, rfl, rfl, rfl, rfl⟩

theorem keeps_foldl_pushChildren (s : Search) (state : State) (moves : List (Rule × List Opcode)) :
    s.Keeps (moves.foldl (·.pushChildren state ·) s) := by
  induction moves generalizing s with
  | nil => exact .refl s
  | cons move rest ih => exact (keeps_pushChildren s state move).trans (ih _)

theorem keeps_grow (worker : Worker) (s : Search) (state : State)
    (moves : List (Rule × List Opcode)) : s.Keeps (s.grow worker state moves) := by
  have counted : s.Keeps { s with stats := { s.stats with expanded := s.stats.expanded + 1 } } :=
    ⟨rfl, rfl, rfl, rfl, rfl, rfl, rfl⟩
  exact counted.trans (keeps_foldl_pushChildren _ state _)

theorem keeps_reject (s : Search) (weight : Nat) : s.Keeps (s.reject weight) :=
  ⟨rfl, rfl, rfl, rfl, rfl, rfl, rfl⟩

theorem keeps_request (worker : Worker) (s : Search) (state : State)
    (moves : List (Rule × List Opcode)) : s.Keeps (s.request worker state moves).2 := by
  unfold request
  split
  · exact keeps_reject ..
  · exact keeps_grow ..

theorem keeps_expand (worker : Worker) (s : Search) (state : State) :
    s.Keeps (s.expand worker state).2 := by
  unfold expand
  split
  · exact .refl s
  · exact keeps_request ..

theorem keeps_takeUp (worker : Worker) (s : Search) (state : State) :
    s.Keeps (s.takeUp worker state).2.1 := by
  unfold takeUp
  split
  · exact ⟨rfl, rfl, rfl, rfl, rfl, rfl, rfl⟩
  · exact keeps_expand ..

theorem popped_lt_of_spent?_eq_none {s : Search} (h : s.spent? = none) :
    s.stats.popped < s.limits.maxStates := by
  unfold spent? at h
  split at h
  · simp at h
  · split at h
    · simp at h
    · split at h
      · simp at h
      next enough => exact Nat.lt_of_not_le enough

/-- A step that does not stop takes up one state of the budget. -/
theorem step_popped (worker : Worker) (s : Search)
    (h : ∀ reason, (s.step worker).2.2 ≠ some (.stopped reason)) :
    s.stats.popped < s.limits.maxStates ∧ (s.step worker).2.1.limits = s.limits ∧
      (s.step worker).2.1.stats.popped = s.stats.popped + 1 := by
  cases spent : s.stopped.or s.spent? with
  | some reason => exact absurd (by simp [step, spent]) (h reason)
  | none =>
      refine ⟨popped_lt_of_spent?_eq_none (Option.or_eq_none_iff.mp spent).2, ?_⟩
      cases popped : s.frontier.pop? with
      | none => exact absurd (by simp [step, spent, popped]) (h .exhausted)
      | some found =>
          simp only [step, spent, popped]
          have kept := keeps_takeUp worker ({ s with frontier := found.2 }.observe found.1) found.1
          exact ⟨kept.limits, kept.popped⟩

theorem step_context (worker : Worker) (s : Search) :
    (s.step worker).2.1.context = s.context := by
  unfold step
  split
  · rfl
  · split
    · rfl
    · exact (keeps_takeUp ..).context

theorem step_limits (worker : Worker) (s : Search) :
    (s.step worker).2.1.limits = s.limits := by
  unfold step
  split
  · rfl
  · split
    · rfl
    · exact (keeps_takeUp ..).limits

/-- Steps until the next event. Each step without one takes up a state of the budget. -/
def next (worker : Worker) (s : Search) : Worker × Search × SearchEvent :=
  match _h : s.step worker with
  | (worker, s, some event) => (worker, s, event)
  | (worker', s', none) => s'.next worker'
termination_by s.limits.maxStates - s.stats.popped
decreasing_by
  have moved := step_popped worker s (by simp [_h])
  simp only [_h] at moved
  rw [moved.2.1, moved.2.2]
  omega

end Search

end ThueProver
