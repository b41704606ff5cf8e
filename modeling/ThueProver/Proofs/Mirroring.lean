import Mathlib.Tactic.Common
import ThueProver.Proofs.FrontierCalls
import ThueProver.Proofs.Headroom
import ThueProver.Proofs.SymbolTables

/-!
# An equation and its mirror image

A theorem is stored with its larger product on the left, so an equation and the one
with its sides exchanged are stored alike: they differ in the flag that tells how the
sides were entered. No search reads this flag and no replay does, and it comes out in
the report as it went in.

Where both products are equal nothing is exchanged, and the two equations are stored
differently. Then the root of the search is a candidate and has no children. The
session is over after one state, and neither of its two possible ends depends on which
side is which.
-/
namespace ThueProver

namespace CodedEquation

/-- The same stored sides, entered the other way round. -/
def turned (e : CodedEquation) : CodedEquation := { e with swapped := !e.swapped }

end CodedEquation

namespace Codebook

variable {book : Codebook} {e : Equation}

theorem Covers.exchange (h : book.Covers e.tokens) : book.Covers e.exchange.tokens :=
  h.of_perm List.perm_append_comm

end Codebook

/-! ## Different products -/

/-- The report on a theorem that was entered the other way round. -/
def Report.turned (r : Report) : Report := { r with swapped := !r.swapped }

def Progress.turned : Progress → Progress
  | .unfinished => .unfinished
  | .reported r => .reported r.turned
  | .failed error => .failed error

def Context.turned (c : Context) : Context := { c with goal := c.goal.turned }

namespace Search

def turned (s : Search) : Search := { s with context := s.context.turned }

end Search

namespace Session

def turned (s : Session) : Session :=
  { s with search := s.search.turned, outcome := s.outcome.map Report.turned }

end Session

/-! ## Equal products -/

namespace Search

variable {context : Context} {limits : Limits}

/-- The search for a theorem of equal products after its first step. -/
def answered (context : Context) (limits : Limits) (frontier : Frontier) : Search :=
  { start context limits with
    frontier
    stats := { popped := 1, candidates := 1 }
    best := some (.root context.goal) }

end Search

namespace Session

end Session

theorem Equation.Usable.exchange {e : Equation} (h : e.Usable) : e.exchange.Usable :=
  ⟨h.2.1, h.1, h.2.2.2, h.2.2.1⟩

namespace Prover

variable {p : Prover} {axioms : List Equation} {e : Equation} {worker : Worker}

end Prover

end ThueProver
