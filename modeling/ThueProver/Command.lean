import ThueProver.CommandLine
import ThueProver.Display
import ThueProver.Service
import ThueProver.SocketAddress
import ThueProver.Workspace

/-!
# What the commands do

A command reads the workspace it is given and answers with an exit code and two texts. Exit code 2
says that there is no proof, exit code 1 that something was wrong. The workspace is read before the
theorem, so its errors come first.
-/
namespace ThueProver.CommandLine

structure Outcome where
  code : Nat := 0
  out : String := ""
  err : String := ""
  deriving DecidableEq, Repr, Inhabited

namespace Outcome

/-- Puts a text in front of what is printed. -/
def after (text : String) (outcome : Outcome) : Outcome :=
  { outcome with out := text ++ outcome.out }

end Outcome

def failed (message : String) : Outcome := { code := 1, err := message }

/-- The headline of a rule file's error; the drawing that a terminal shows below it is left out. -/
def ruleFailure (error : RuleFile.Error) : Outcome := failed error.title

def proofFailure (error : ProofError) : Outcome := failed (error.notice ++ "\n")

def loadFailure : Workspace.LoadError → Outcome
  | .notFound path => failed s!"Error: Workspace directory '{path}' not found\n"
  | .notText => failed "Error: stream did not contain valid UTF-8\n"
  | .isDirectory => failed "Error: Is a directory (os error 21)\n"
  | .badRule error => ruleFailure error

/-- The directories a command can see, by their paths. -/
abbrev Directories := String → Option Entry

/-- A prover with the axioms of a workspace, and the number of its files. -/
def load (directories : Directories) (directory : String) (limits : Limits) :
    Except Outcome (Prover × Nat) :=
  match Workspace.load (directories directory) directory with
  | .error error => .error (loadFailure error)
  | .ok contents =>
      match Prover.setAxioms { limits } contents.axioms with
      | .error error => .error (proofFailure error)
      | .ok prover => .ok (prover, contents.fileCount)

/-- The workspace's prover and a theorem. A theorem that cannot be read is noticed after the
workspace's own errors and before the axioms are coded. -/
def loadFor (directories : Directories) (directory : String) (limits : Limits)
    (theoremText : String) : Except Outcome (Prover × Equation) :=
  match Workspace.load (directories directory) directory with
  | .error error => .error (loadFailure error)
  | .ok contents =>
      match RuleFile.parseEquation "<theorem>" theoremText with
      | .error error => .error (ruleFailure error)
      | .ok e =>
          match Prover.setAxioms { limits } contents.axioms with
          | .error error => .error (proofFailure error)
          | .ok prover => .ok (prover, e)

/-- The session of a proof about to be searched for. -/
def beginProof (directories : Directories) (theoremText directory : String) (limits : Limits) :
    Except Outcome Session :=
  match loadFor directories directory limits theoremText with
  | .error outcome => .error outcome
  | .ok (prover, e) =>
      match prover.start e with
      | .error error => .error (proofFailure error)
      | .ok session => .ok session

/-- Shows what a session has come to. -/
def finishProof (theoremText : String) (raw : Bool) : Except ProofError Report → Outcome
  | .error error => proofFailure error
  | .ok report =>
      { code := if report.isProved then 0 else 2
        out :=
          if raw then Display.commitLog report
          else Display.report (String.ofList (Text.trim theoremText.toList)) report }

def showGraph (directories : Directories) (theoremText directory : String) : Outcome :=
  match loadFor directories directory {} theoremText with
  | .error outcome => outcome
  | .ok (prover, e) =>
      match prover.callGraph e with
      | .error error => proofFailure error
      | .ok graph => { out := Display.graph graph }

def listAxioms (directories : Directories) (directory : String) : Outcome :=
  .after s!"Loading workspace from {directory}...\n" <|
    match load directories directory {} with
    | .error outcome => outcome
    | .ok (prover, files) => { out := "\n" ++ Display.axioms files prover.book.rules }

/-- Gets ready to serve. Listening on the address is not part of this program. -/
def serve (directories : Directories) (directory host : String) : Outcome :=
  match load directories directory {} with
  | .error outcome => outcome
  | .ok (prover, _) =>
      .after s!"Starting HTTP server with {prover.book.size} axiom(s) loaded\n" <|
        if SocketAddress.isHost host then failed "Error: listening is not supported\n"
        else failed "Error: invalid socket address syntax\n"

/-- Runs a command; no time passes during a search. -/
def run (directories : Directories) : Command → Outcome
  | .prove theoremText directory raw limits =>
      match beginProof directories theoremText directory limits with
      | .error outcome => outcome
      | .ok session => finishProof theoremText raw (session.run {}).2.2
  | .graph theoremText directory => showGraph directories theoremText directory
  | .list directory => listAxioms directories directory
  | .server directory host _ => serve directories directory host

def versionText : String := s!"primeproof {Service.version}\n"

def helpText : String :=
  "Prove equalities between token sequences by rewriting.\n\n" ++
    "Usage: primeproof [--verbose] <COMMAND>\n\nCommands:\n" ++
    "  prove <THEOREM>  Prove a theorem from the axioms in the workspace\n" ++
    "  graph <THEOREM>  Show the call graph between a theorem and the axioms\n" ++
    "  list [ROOT]      List all axioms with their guids\n" ++
    "  server           Start HTTP REST API server\n"

end ThueProver.CommandLine
