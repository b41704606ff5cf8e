import ThueProver.Prover
import ThueProver.Text.Table

/-!
# Reports, call graphs and axioms for a reader

Each is a text that ends with a newline. Steps, edges and axioms are drawn as tables.
-/
namespace ThueProver

open Text

namespace Status

/-- What a report says of its theorem. -/
def label : Status → String
  | proved => "Proved"
  | noProof => "No proof found for"
  | verificationFailed => "Verification failed for"
  | cancelled => "Cancelled"
  | limitReached => "Search limit reached for"

end Status

namespace StopReason

def label : StopReason → String
  | exhausted => "Exhausted"
  | cancelled => "Cancelled"
  | stateBudget => "StateBudget"
  | timeout => "Timeout"
  | proofBudget => "ProofBudget"

end StopReason

namespace Display

/-- The name of an equation in tables. -/
def equationName (id : Nat) : String := if id == theoremId then "Theorem" else s!"Axiom_{id}"

def tokens (sequence : List Token) : String := " ".intercalate sequence

/-- The steps of a report with the sides after each. -/
def stepTable (steps : List StepRecord) : Table where
  columns := [⟨"#", .right⟩, ⟨"Rewrite", .left⟩, ⟨"Left", .left⟩, ⟨"Right", .left⟩]
  rows := steps.zipIdx.map fun (r, index) =>
    [toString (index + 1), r.description, tokens r.tokens.left, tokens r.tokens.right]

/-- A text if a condition holds. -/
def when (condition : Bool) (text : String) : String := if condition then text else ""

def stepsPart (r : Report) : String :=
  if r.steps.isEmpty then ""
  else when (!r.isProved) "Best partial trace:\n" ++ (stepTable r.steps).render ++ "\n"

def statsPart (r : Report) : String :=
  s!"\n{r.stats.popped} states popped, {r.stats.expanded} expanded, " ++
    s!"{r.stats.generated} children, {r.stats.duplicates} duplicates\n" ++
    when (0 < r.stats.rejectedBatches)
      (s!"Admission control rejected {r.stats.rejectedBatches} batch(es), " ++
        s!"dropping {r.stats.droppedTransitions} transition(s)\n") ++
    when (0 < r.rejected) s!"{r.rejected} candidate(s) failed token verification\n"

/-- A report under the text of its theorem. -/
def report (title : String) (r : Report) : String :=
  s!"{r.status.label} {title}\n" ++
    (r.stopReason.map fun reason => s!"Search stopped: {reason.label}\n").getD "" ++
    when r.swapped "Sides were exchanged so that the larger composite is on the left\n" ++
    "\n" ++ stepsPart r ++ r.final.text ++ "\n" ++ statsPart r

/-- The texts of the steps alone, one on a line. -/
def commitLog (r : Report) : String := "".intercalate (r.commitLog.map (· ++ "\n"))

/-- The edges of a call graph and their number. -/
def graph (g : CallGraph) : String :=
  if g.isEmpty then "No rewrite relations\n"
  else
    let table : Table := {
      columns := [⟨"Source", .left⟩, ⟨"Relation", .left⟩, ⟨"Target", .left⟩]
      rows := g.toList.map fun edge =>
        [equationName edge.source, edge.relation.name, equationName edge.target] }
    table.render ++ s!"\n{g.size} edge(s)\n"

/-- The axioms as entered, and how they are stored. -/
def axioms (fileCount : Nat) (rules : List Rule) : String :=
  let table : Table := {
    columns := [⟨"Axiom", .left⟩, ⟨"Equation", .left⟩, ⟨"Stored as", .left⟩]
    rows := rules.map fun rule =>
      [equationName rule.id, rule.entered.text, if rule.swapped then "swapped" else "as written"] }
  s!"Workspace contains {fileCount} files, {rules.length} axioms\n\n" ++
    when (!rules.isEmpty) (table.render ++ "\n")

end Display

end ThueProver
