import ThueProver.Report

/-!
# Proof sessions

A session is a search with the check of its candidates around it. It can be advanced in slices;
once it has a report it keeps it.
-/
namespace ThueProver

structure Session where
  search : Search
  /-- The number of candidates that did not pass on the tokens. -/
  rejected : Nat := 0
  outcome : Option Report := none

/-- What a call on a session came to. -/
inductive Progress where
  /-- No report yet. -/
  | unfinished
  | reported (report : Report)
  | failed (error : ProofError)
  deriving DecidableEq, Repr, Inhabited

namespace Session

def cancel (s : Session) : Session := { s with search := s.search.cancel }

def renew (s : Session) : Session := { s with search := s.search.renew }

def wait (s : Session) (ms : Nat) : Session := { s with search := s.search.wait ms }

def isFinished (s : Session) : Bool := s.outcome.isSome

def replay (s : Session) (proof : List Step) : Except ProofError Replay :=
  ThueProver.replay s.search.context.book s.search.context.goal.tokens proof

def report (s : Session) (status : Status) (stopReason : Option StopReason) (proof : List Step)
    (replay : Replay) : Report where
  status
  stopReason
  proof
  steps := replay.steps
  commitLog := replay.trace
  final := replay.tokens
  swapped := s.search.context.goal.swapped
  rejected := s.rejected
  stats := s.search.stats

/-- Keeps a report. -/
def settle (s : Session) (report : Report) : Session × Progress :=
  ({ s with outcome := some report }, .reported report)

/-- Checks a candidate: it is proved, or rejected and the session goes on. -/
def examine (s : Session) (candidate : State) : Session × Progress :=
  match s.replay candidate.proof with
  | .error error => (s, .failed error)
  | .ok replay =>
      if replay.valid then s.settle (s.report .proved none candidate.proof replay)
      else ({ s with rejected := s.rejected + 1 }, .unfinished)

/-- Closes a session whose search has stopped, with the best partial trace. -/
def close (s : Session) (reason : StopReason) : Session × Progress :=
  match s.replay s.search.bestProof with
  | .error error => (s, .failed error)
  | .ok replay =>
      s.settle (s.report (.ofStop s.rejected reason) (some reason) s.search.bestProof replay)

/-- One step of the search and what follows from it. -/
def step (worker : Worker) (s : Session) : Worker × Session × Progress :=
  match s.search.step worker with
  | (worker, search, none) => (worker, { s with search }, .unfinished)
  | (worker, search, some (.candidate state)) => (worker, { s with search }.examine state)
  | (worker, search, some (.stopped reason)) => (worker, { s with search }.close reason)

/-- Steps until something comes of it, `budget` steps at most. -/
def stepUpTo (worker : Worker) (s : Session) : (budget : Nat) → Worker × Session × Progress
  | 0 => (worker, s, .unfinished)
  | budget + 1 =>
      match s.step worker with
      | (worker, s, .unfinished) => s.stepUpTo worker budget
      | done => done

/-- Takes up at most `budget` states. -/
def advance (worker : Worker) (s : Session) (budget : Nat) : Worker × Session × Progress :=
  match s.outcome with
  | some report => (worker, s, .reported report)
  | none => s.stepUpTo worker budget

theorem settle_ne_unfinished (s : Session) (r : Report) : (s.settle r).2 ≠ .unfinished := by
  simp [settle]

theorem close_ne_unfinished (s : Session) (reason : StopReason) :
    (s.close reason).2 ≠ .unfinished := by
  unfold close
  split
  · simp
  · exact settle_ne_unfinished _ _

@[simp] theorem examine_search (s : Session) (candidate : State) :
    (s.examine candidate).1.search = s.search := by
  unfold examine
  split
  · rfl
  · split <;> rfl

/-- A step after which the session is unfinished takes up one state of the budget. -/
theorem step_popped (worker : Worker) (s : Session)
    (h : (s.step worker).2.2 = .unfinished) :
    s.search.stats.popped < s.search.limits.maxStates ∧
      (s.step worker).2.1.search.limits = s.search.limits ∧
      (s.step worker).2.1.search.stats.popped = s.search.stats.popped + 1 := by
  have moved := Search.step_popped worker s.search
  unfold step at h ⊢
  split at h
  next eq => simpa [eq] using moved
  next eq => simpa [eq] using moved
  next eq => exact absurd h (close_ne_unfinished _ _)

/-- Runs until there is a report or an error. -/
def run (worker : Worker) (s : Session) : Worker × Session × Except ProofError Report :=
  match s.outcome with
  | some report => (worker, s, .ok report)
  | none =>
      match _h : s.step worker with
      | (worker, s, .reported report) => (worker, s, .ok report)
      | (worker, s, .failed error) => (worker, s, .error error)
      | (worker', s', .unfinished) => s'.run worker'
termination_by s.search.limits.maxStates - s.search.stats.popped
decreasing_by
  have moved := step_popped worker s (by simp [_h])
  simp only [_h] at moved
  rw [moved.2.1, moved.2.2]
  omega

end Session

end ThueProver
