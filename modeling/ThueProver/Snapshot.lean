import ThueProver.Json.Forms
import ThueProver.Session

/-!
# Snapshots of sessions

All that a suspended session needs to go on later, in another process if need be. Equations are
kept as they were entered and the codebook as the order of its symbols: coding them again yields
the same primes, numbers and orientation. A report already given, a cancellation and the time spent
are not kept.
-/
namespace ThueProver

structure Snapshot where
  symbols : List Token
  axioms : List Equation
  goal : Equation
  pending : List State
  visited : List (Nat × Nat)
  best : Option State
  stats : Stats
  rejected : Nat
  limits : Limits
  deriving DecidableEq, Repr, Inhabited

namespace Equation

def toJson (e : Equation) : Json := .list [.texts e.left, .texts e.right]

def schema : Schema := .pair .texts .texts

def ofJson? : Json → Option Equation
  | .list [left, right] => do return ⟨← left.texts?, ← right.texts?⟩
  | _ => none

end Equation

namespace State

def toJson (s : State) : Json :=
  .record [
    ("lhs", .product s.left),
    ("rhs", .product s.right),
    ("proof", .list (s.proof.map (·.toJson)))]

def schema : Schema :=
  .record (.ofList [("lhs", .product), ("rhs", .product), ("proof", .list Step.schema)])

def ofJson? : Json → Option State
  | .record [(_, left), (_, right), (_, .list proof)] => do
      return ⟨← left.product?, ← right.product?, ← proof.mapM Step.ofJson?⟩
  | _ => none

end State

namespace Snapshot

def pairToJson (pair : Nat × Nat) : Json := .list [.product pair.1, .product pair.2]

def pairOfJson? : Json → Option (Nat × Nat)
  | .list [left, right] => do return (← left.product?, ← right.product?)
  | _ => none

def bestOfJson? : Json → Option (Option State)
  | .null => some none
  | v => (State.ofJson? v).map some

def toJson (s : Snapshot) : Json :=
  .record [
    ("symbols", .texts s.symbols),
    ("axioms", .list (s.axioms.map (·.toJson))),
    ("theorem", s.goal.toJson),
    ("pending", .list (s.pending.map (·.toJson))),
    ("seen", .list (s.visited.map pairToJson)),
    ("best", (s.best.map (·.toJson)).getD .null),
    ("stats", s.stats.toJson),
    ("rejected_candidates", .number s.rejected),
    ("limits", s.limits.toJson)]

def schema : Schema :=
  .record (.ofList [
    ("symbols", .texts),
    ("axioms", .list Equation.schema),
    ("theorem", Equation.schema),
    ("pending", .list State.schema),
    ("seen", .list (.pair .product .product)),
    ("best", .optional State.schema),
    ("stats", Stats.schema),
    ("rejected_candidates", .count),
    ("limits", Limits.schema)])

def ofJson? : Json → Option Snapshot
  | .record [(_, symbols), (_, .list axioms), (_, goal), (_, .list pending), (_, .list visited),
      (_, best), (_, stats), (_, .number rejected), (_, limits)] => do
      return {
        symbols := ← symbols.texts?
        axioms := ← axioms.mapM Equation.ofJson?
        goal := ← Equation.ofJson? goal
        pending := ← pending.mapM State.ofJson?
        visited := ← visited.mapM pairOfJson?
        best := ← bestOfJson? best
        stats := ← Stats.ofJson? stats
        rejected
        limits := ← Limits.ofJson? limits }
  | _ => none

def render (s : Snapshot) : String := s.toJson.render

def parse (text : String) : Except ProofError Snapshot :=
  match schema.readWhole text with
  | .error _ => .error .unreadableSnapshot
  | .ok v =>
      match ofJson? v with
      | none => .error .unreadableSnapshot
      | some snapshot => .ok snapshot

end Snapshot

namespace Session

def snapshot (s : Session) : Snapshot where
  symbols := s.search.context.codes.symbols
  axioms := s.search.context.book.rules.map (·.entered)
  goal := s.search.context.goal.entered
  pending := s.search.frontier.pending
  visited := s.search.frontier.visited
  best := s.search.best
  stats := s.search.stats
  rejected := s.rejected
  limits := s.search.limits

/-- The session a snapshot was taken of. The symbols listed have to be as many as the equations
need, so that no token draws a prime the products were not made with. -/
def ofSnapshot (s : Snapshot) : Except ProofError Session := do
  s.limits.check
  let (book, codes) ← RuleBook.ofEquations (.ofSymbols s.symbols) s.axioms
  let context ← Context.prepare codes book s.goal s.limits.useCallGraph
  if context.codes.symbols.length ≠ s.symbols.length then throw .uncoveredSymbols
  return {
    search := .restore context s.limits s.pending s.visited s.stats s.best
    rejected := s.rejected }

/-- The session that a text was written out of. -/
def ofText (text : String) : Except ProofError Session := do
  let snapshot ← Snapshot.parse text
  ofSnapshot snapshot

end Session

end ThueProver
