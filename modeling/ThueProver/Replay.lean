import ThueProver.RuleBook

/-!
# Replaying a proof on tokens

The search works on products, which forget the order of tokens. A proof counts only if each step
finds its pattern as a run of adjacent tokens and both sides end up equal, token for token.
-/
namespace ThueProver

/-- Replaces the first run of tokens equal to `pattern`. An empty pattern is never found. -/
def replaceFirst? (pattern replacement : List Token) : List Token → Option (List Token)
  | [] => none
  | token :: rest =>
      if pattern.isEmpty then none
      else if pattern.isPrefixOf (token :: rest) then
        some (replacement ++ (token :: rest).drop pattern.length)
      else (replaceFirst? pattern replacement rest).map (token :: ·)

/-- A step of a replay and both sides after it. -/
structure StepRecord where
  step : Step
  /-- The text of the step. -/
  description : String
  tokens : Equation
  deriving DecidableEq, Repr, Inhabited

/-- How far a proof could be replayed. -/
structure Replay where
  /-- The sides after the last step that applied. -/
  tokens : Equation
  /-- The texts of the steps that applied. -/
  trace : List String := []
  /-- The steps that applied, with the sides after each. -/
  steps : List StepRecord := []
  /-- The place of the first step whose pattern was not found. -/
  failedStep : Option Nat := none
  deriving DecidableEq, Repr, Inhabited

namespace Replay

/-- Every step applied and the sides are equal. -/
def valid (r : Replay) : Bool := r.failedStep.isNone && r.tokens.left == r.tokens.right

/-- Puts a step that applied in front, with the sides it led to. -/
def after (step : Step) (tokens : Equation) (r : Replay) : Replay :=
  { r with
    trace := step.text :: r.trace
    steps := ⟨step, step.text, tokens⟩ :: r.steps
    failedStep := r.failedStep.map (· + 1) }

end Replay

/-- Applies one step to the side its opcode names; there is no result if the pattern is not found. -/
def replaceIn? (tokens : Equation) (op : Opcode) (rule : Rule) : Option Equation :=
  (replaceFirst? (rule.pattern op.direction) (rule.replacement op.direction)
    (tokens.side op.side)).map (tokens.setSide op.side)

/-- Replays a proof from given sides. It stops at the first step whose pattern is not found, and
fails only on a step whose rule is not in the book. -/
def replay (book : RuleBook) (tokens : Equation) : List Step → Except ProofError Replay
  | [] => .ok { tokens }
  | step :: rest =>
      match book.get? step.rule with
      | none => .error (.unknownRule step.rule)
      | some rule =>
          match replaceIn? tokens step.opcode rule with
          | none => .ok { tokens, failedStep := some 0 }
          | some tokens => (replay book tokens rest).map (.after step tokens)

end ThueProver
