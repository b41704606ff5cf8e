import ThueProver.Replay
import ThueProver.Search

/-!
# Reports

The outcome of a proof attempt. For a proof the steps are the verified chain; otherwise they are
the best partial trace the search came upon, replayed as far as the tokens allow.
-/
namespace ThueProver

inductive Status where
  | proved
  /-- Nothing was left to explore and there was no candidate. -/
  | noProof
  /-- There were candidates, and none passed on the tokens. -/
  | verificationFailed
  | cancelled
  /-- A budget ran out first. -/
  | limitReached
  deriving DecidableEq, Repr, Inhabited

namespace Status

def name : Status → String
  | proved => "proved"
  | noProof => "no_proof"
  | verificationFailed => "verification_failed"
  | cancelled => "cancelled"
  | limitReached => "limit_reached"

/-- The status of a search that stopped without a proof, given how many candidates it rejected. -/
def ofStop (rejected : Nat) : StopReason → Status
  | .cancelled => cancelled
  | .exhausted => if 0 < rejected then verificationFailed else noProof
  | .stateBudget | .timeout => if 0 < rejected then verificationFailed else limitReached
  | .proofBudget => verificationFailed

end Status

structure Report where
  status : Status
  /-- Why the search stopped; none if there is a proof. -/
  stopReason : Option StopReason
  proof : List Step
  /-- The steps of `proof` that could be replayed, with the sides after each. -/
  steps : List StepRecord
  /-- The texts of these steps. -/
  commitLog : List String
  /-- The sides after the last of these steps. -/
  final : Equation
  /-- The sides of the theorem were exchanged. -/
  swapped : Bool
  /-- The number of candidates that did not pass on the tokens. -/
  rejected : Nat
  stats : Stats
  deriving DecidableEq, Repr, Inhabited

namespace Report

def isProved (r : Report) : Bool := r.status == .proved

end Report

end ThueProver
