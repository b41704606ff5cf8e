import ThueProver.Json.Schema
import ThueProver.Report
import ThueProver.Word

/-!
# JSON forms of the prover's values

How steps, counts, limits and reports are written, and the shapes of those that are read back.
A product of primes is written as the list of its digits to base 2^32, the lowest first and none
of them a leading zero; the product zero has no digits.
-/
namespace ThueProver

namespace Schema

/-- A counter or a limit. -/
def count : Schema := .natural wordBound

/-- A product of primes. -/
def product : Schema := .list (.natural digitBound)

def texts : Schema := .list .text

end Schema

/-- The digits of a number to base 2^32, the lowest first. -/
def limbs (n : Nat) : List Nat :=
  if _h : n = 0 then [] else n % digitBound :: limbs (n / digitBound)
termination_by n
decreasing_by exact Nat.div_lt_self (Nat.pos_of_ne_zero _h) (by decide)

/-- The number with given digits. -/
def ofLimbs : List Nat → Nat
  | [] => 0
  | digit :: rest => digit + digitBound * ofLimbs rest

namespace Json

def product (n : Nat) : Json := list ((limbs n).map number)

def number? : Json → Option Nat
  | number n => some n
  | _ => none

def text? : Json → Option String
  | text s => some s
  | _ => none

def list? : Json → Option (List Json)
  | list items => some items
  | _ => none

def texts? (v : Json) : Option (List String) := do (← v.list?).mapM text?

def product? (v : Json) : Option Nat := do return ofLimbs (← (← v.list?).mapM number?)

end Json

namespace Step

def toJson (step : Step) : Json :=
  .record [("opcode", .text step.opcode.name), ("rule_id", .number step.rule)]

def schema : Schema :=
  .record (.ofList [("opcode", .word (Opcode.all.map (·.name))), ("rule_id", .count)])

def ofJson? : Json → Option Step
  | .record [(_, .text opcode), (_, .number rule)] =>
      (Opcode.ofName? opcode).map fun opcode => ⟨opcode, rule⟩
  | _ => none

end Step

namespace Stats

def toJson (stats : Stats) : Json :=
  .record [
    ("states_popped", .number stats.popped),
    ("states_expanded", .number stats.expanded),
    ("children_generated", .number stats.generated),
    ("duplicates_skipped", .number stats.duplicates),
    ("rejected_batches", .number stats.rejectedBatches),
    ("dropped_transitions", .number stats.droppedTransitions),
    ("candidates", .number stats.candidates)]

def schema : Schema :=
  .record (.ofList [
    ("states_popped", .count),
    ("states_expanded", .count),
    ("children_generated", .count),
    ("duplicates_skipped", .count),
    ("rejected_batches", .count),
    ("dropped_transitions", .count),
    ("candidates", .count)])

def ofJson? : Json → Option Stats
  | .record [(_, .number popped), (_, .number expanded), (_, .number generated),
      (_, .number duplicates), (_, .number rejectedBatches), (_, .number droppedTransitions),
      (_, .number candidates)] =>
      some ⟨popped, expanded, generated, duplicates, rejectedBatches, droppedTransitions,
        candidates⟩
  | _ => none

end Stats

namespace Limits

def toJson (limits : Limits) : Json :=
  .record [
    ("max_fanout", .number limits.maxFanout),
    ("max_proofs", .number limits.maxProofs),
    ("max_states", .number limits.maxStates),
    ("max_search_time_ms", .number limits.maxSearchTimeMs),
    ("max_axioms", .number limits.maxAxioms),
    ("parallel_threshold", .number limits.parallelThreshold),
    ("frontier_order", .text limits.frontierOrder.name),
    ("use_call_graph", .flag limits.useCallGraph)]

def schema : Schema :=
  .record (.ofList [
    ("max_fanout", .count),
    ("max_proofs", .count),
    ("max_states", .count),
    ("max_search_time_ms", .count),
    ("max_axioms", .count),
    ("parallel_threshold", .count),
    ("frontier_order", .word (FrontierOrder.all.map (·.name))),
    ("use_call_graph", .flag)])

def ofJson? : Json → Option Limits
  | .record [(_, .number maxFanout), (_, .number maxProofs), (_, .number maxStates),
      (_, .number maxSearchTimeMs), (_, .number maxAxioms), (_, .number parallelThreshold),
      (_, .text frontierOrder), (_, .flag useCallGraph)] =>
      (FrontierOrder.ofName? frontierOrder).map fun frontierOrder =>
        ⟨maxFanout, maxProofs, maxStates, maxSearchTimeMs, maxAxioms, parallelThreshold,
          frontierOrder, useCallGraph⟩
  | _ => none

/-- Reads the text of limits; they may be unusable. -/
def parse (text : String) : Except ProofError Limits :=
  match schema.readWhole text with
  | .error _ => .error .unreadableSnapshot
  | .ok v =>
      match ofJson? v with
      | none => .error .unreadableSnapshot
      | some limits => .ok limits

end Limits

namespace StepRecord

def toJson (r : StepRecord) : Json :=
  .record [
    ("step", r.step.toJson),
    ("description", .text r.description),
    ("lhs", .texts r.tokens.left),
    ("rhs", .texts r.tokens.right)]

end StepRecord

namespace Replay

def toJson (r : Replay) : Json :=
  .record [
    ("valid", .flag r.valid),
    ("lhs", .texts r.tokens.left),
    ("rhs", .texts r.tokens.right),
    ("trace", .texts r.trace),
    ("steps", .list (r.steps.map (·.toJson))),
    ("failed_step", (r.failedStep.map .number).getD .null)]

end Replay

namespace Report

/-- The members of a report; there is no stop reason if there is a proof. -/
def members (r : Report) : List (String × Json) :=
  [("status", .text r.status.name)] ++
    (r.stopReason.map fun reason => ("stop_reason", .text reason.name)).toList ++
    [("proof", .list (r.proof.map (·.toJson))),
      ("proof_steps", .list (r.steps.map (·.toJson))),
      ("commit_log", .texts r.commitLog),
      ("final_lhs", .texts r.final.left),
      ("final_rhs", .texts r.final.right),
      ("theorem_swapped", .flag r.swapped),
      ("rejected_candidates", .number r.rejected),
      ("stats", r.stats.toJson)]

def toJson (r : Report) : Json := .record r.members

end Report

end ThueProver
