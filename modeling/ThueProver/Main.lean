import ThueProver.Command

/-!
# The program

Reads the directory a command names, runs the command and prints what it answers. A search is run
in short slices, and the time that each took is charged to it.
-/
namespace ThueProver.Program

open CommandLine

/-- The number of states taken up between two looks at the clock. -/
def slice : Nat := 32

/-- Runs a session against the clock. -/
partial def runTimed (worker : Worker) (session : Session) (last : Nat) :
    IO (Except ProofError Report) := do
  match session.advance worker slice with
  | (_, _, .reported report) => return .ok report
  | (_, _, .failed error) => return .error error
  | (worker, session, .unfinished) =>
      let now ← IO.monoMsNow
      runTimed worker (session.wait (now - last)) now

def runCommand (directories : Directories) : Command → IO Outcome
  | .prove theoremText directory raw limits =>
      match beginProof directories theoremText directory limits with
      | .error outcome => return outcome
      | .ok session => do
          return finishProof theoremText raw (← runTimed {} session (← IO.monoMsNow))
  | command => return run directories command

/-- The directory at a path with everything below it. -/
def readDirectory (path : String) : IO (Option Entry) := do
  match ← (IO.FS.realPath path).toBaseIO with
  | .error _ => return none
  | .ok root => if ← root.isDir then return some (← below root) else return none
where
  /-- A directory or a file. -/
  below root : IO Entry := do
    let paths ← root.walkDir
    let mut tree : Entry := .directory []
    for path in paths do
      let names := path.components.drop root.components.length
      if ← path.isDir then tree := (Entry.directory []).put names tree
      else tree := (Entry.file (← IO.FS.readBinFile path)).put names tree
    return tree

end ThueProver.Program

open ThueProver in
def main (args : List String) : IO UInt32 := do
  match CommandLine.read args with
  | .version => IO.print CommandLine.versionText; return 0
  | .help => IO.print CommandLine.helpText; return 0
  | .misuse => IO.eprint CommandLine.helpText; return 2
  | .run command =>
      let root ← Program.readDirectory command.directory
      let outcome ← Program.runCommand (fun _ => root) command
      IO.print outcome.out
      IO.eprint outcome.err
      return outcome.code.toUInt32
