import Mathlib
import ThueProver.Proofs.History
import ThueProver.Proofs.Moves

/-!
# The names of tokens carry no meaning

A renaming gives every non-empty token a non-empty name, and no two the same one.
Tokens draw their primes in the order in which they are met, so renamed equations
have the products of the originals, and a search, which reads products and numbers
and nothing else, makes the same steps. A replay compares tokens with one another
and looks into none, so it finds a renamed pattern where it found the pattern.

Each operation commutes with renaming what it is given. The empty token stands in
no usable equation; it is left alone, so that an equation that is refused is
refused for the same reason.
-/
namespace ThueProver

/-- Other names for the tokens of usable equations. -/
structure Renaming where
  name : Token → Token
  name_ne_empty : ∀ t, t ≠ "" → name t ≠ ""
  name_injective : ∀ t u, t ≠ "" → u ≠ "" → name t = name u → t = u

namespace Renaming

/-- A mark before every token. -/
def marked (mark : String) : Renaming where
  name t := mark ++ t
  name_ne_empty t ht h := ht (String.append_eq_empty_iff.mp h).2
  name_injective t u _ _ h := by simpa using h

variable (f : Renaming)

/-- The empty token keeps its name. -/
def token (t : Token) : Token := if t = "" then "" else f.name t

def equation (e : Equation) : Equation := ⟨e.left.map f.token, e.right.map f.token⟩

def coded (e : CodedEquation) : CodedEquation := { e with tokens := f.equation e.tokens }

def rule (r : Rule) : Rule := ⟨f.coded r.toCodedEquation, r.id⟩

def book (b : RuleBook) : RuleBook := { b with rules := b.rules.map f.rule }

/-- The primes stay where they are; their owners have other names. -/
def codes (b : Codebook) : Codebook :=
  { b with owners := b.owners.map fun owner => (f.token owner.1, owner.2) }

def context (c : Context) : Context where
  codes := f.codes c.codes
  book := f.book c.book
  goal := f.coded c.goal
  graph := c.graph

/-- What a search reads is renamed; its states have no names in them. -/
def search (s : Search) : Search := { s with context := f.context s.context }

/-- A rule with its opcodes. -/
def move (m : Rule × List Opcode) : Rule × List Opcode := (f.rule m.1, m.2)

theorem applicable_search (s : Search) (state : State) :
    (f.search s).applicable state = (s.applicable state).map f.move := by
  unfold Search.applicable
  rw [show (f.search s).context.book.rules = s.context.book.rules.map f.rule from rfl,
    List.filterMap_map, List.map_filterMap]
  apply List.filterMap_congr
  intro r _
  rw [Function.comp_apply, show (f.search s).opcodes state (f.rule r) = s.opcodes state r from rfl]
  dsimp only
  split_ifs <;> rfl

theorem weight_map (moves : List (Rule × List Opcode)) :
    Search.weight (moves.map f.move) = Search.weight moves := by
  induction moves with
  | nil => rfl
  | cons m rest ih => simp only [List.map_cons, Search.weight, ih, move]

theorem childrenOf_map (state : State) (moves : List (Rule × List Opcode)) :
    state.childrenOf (moves.map f.move) = state.childrenOf moves := by
  unfold State.childrenOf
  rw [List.flatMap_map]
  rfl

theorem arrange_search (worker : Worker) (s : Search) (moves : List (Rule × List Opcode)) :
    (f.search s).arrange worker (moves.map f.move) = (s.arrange worker moves).map f.move := by
  apply Search.arrange_map
  intro batches
  rw [show (f.search s).context.book.size = s.context.book.size from List.length_map _]
  rfl

theorem request_search (worker : Worker) (s : Search) (state : State)
    (moves : List (Rule × List Opcode)) :
    (f.search s).request worker state (moves.map f.move) =
      ((s.request worker state moves).1, f.search (s.request worker state moves).2) := by
  unfold Search.request
  rw [weight_map, show (f.search s).limits = s.limits from rfl]
  cases worker.acquire? s.limits.maxFanout (Search.weight moves) with
  | none => rfl
  | some busy =>
      simp only [Search.grow_eq, arrange_search, childrenOf_map]
      rfl

theorem takeUp_search (worker : Worker) (s : Search) (state : State) :
    (f.search s).takeUp worker state =
      ((s.takeUp worker state).1, f.search (s.takeUp worker state).2.1,
        (s.takeUp worker state).2.2) := by
  unfold Search.takeUp
  split_ifs
  · rfl
  unfold Search.expand
  rw [applicable_search]
  cases s.applicable state with
  | nil => rfl
  | cons move moves =>
      have hsame := f.request_search worker s state (move :: moves)
      rw [List.map_cons] at hsame ⊢
      simp only [hsame]

theorem step_search (worker : Worker) (s : Search) :
    (f.search s).step worker =
      ((s.step worker).1, f.search (s.step worker).2.1, (s.step worker).2.2) := by
  unfold Search.step
  rw [show (f.search s).stopped.or (f.search s).spent? = s.stopped.or s.spent? from rfl,
    show (f.search s).frontier = s.frontier from rfl]
  cases s.stopped.or s.spent? with
  | some reason => rfl
  | none =>
      cases s.frontier.pop? with
      | none => rfl
      | some popped =>
          exact f.takeUp_search worker ({ s with frontier := popped.2 }.observe popped.1) popped.1

/-! ## Replaying -/

def record (r : StepRecord) : StepRecord := { r with tokens := f.equation r.tokens }

def replay (r : Replay) : Replay :=
  { r with tokens := f.equation r.tokens, steps := r.steps.map f.record }

/-- Only the sides of the theorem are renamed in a report: those after each step
and those after the last one. -/
def report (r : Report) : Report :=
  { r with steps := r.steps.map f.record, final := f.equation r.final }

def session (s : Session) : Session :=
  { s with search := f.search s.search, outcome := s.outcome.map f.report }

def progress : Progress → Progress
  | .unfinished => .unfinished
  | .reported r => .reported (f.report r)
  | .failed error => .failed error

/-- Suspended sessions are left alone: an attempt does not read them. -/
def prover (p : Prover) : Prover := { p with codes := f.codes p.codes, book := f.book p.book }

end Renaming

end ThueProver
