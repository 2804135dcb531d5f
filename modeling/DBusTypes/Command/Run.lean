import DBusTypes.Command.Report
import DBusTypes.Files.Host
import DBusTypes.Text.Lines

/-!
# Running the command

The command checks the signatures among its arguments, and then those that it reads, and writes a
report on them.

## The order of things

All signatures are read before the target is touched, so a target that is also the input is read
first. The target is made ready before anything is written: a directory is never replaced, and a
file only with consent, which is given in advance or asked for. Every failure comes before the first
record.

* `Command.run` — a whole run, on any host
* `Command.Outcome.exitCode` — 0 just if all signatures are valid
-/

namespace DBusTypes.Command

/-- Why a run fails. -/
inductive Failure where
  | noSignatures
  | inputNotOpened (path : Path)
  | lineNotRead (line : Nat) (path : Path)
  | targetIsDirectory (path : Path)
  /-- Nobody can be asked whether to overwrite a file. -/
  | notConfirmed
  /-- The user does not want a file to be overwritten. -/
  | cancelled
  | targetNotRemoved (path : Path)
  | directoryNotMade (path : Path)
  | targetNotMade (path : Path)
  deriving DecidableEq, Repr

namespace Failure

/-- A failure in words. -/
def message : Failure → String
  | .noSignatures => "no signatures given, pass them as arguments or with `--input`"
  | .inputNotOpened p => "failed to open input `" ++ String.ofList p ++ "`"
  | .lineNotRead n p => "failed to read line " ++ toString n ++ " of `" ++ String.ofList p ++ "`"
  | .targetIsDirectory p =>
    "There is a directory at " ++ String.ofList p ++ ", refusing to overwrite"
  | .notConfirmed => "IO error: not a terminal"
  | .cancelled => "Cancelled"
  | .targetNotRemoved p => "failed to remove " ++ String.ofList p
  | .directoryNotMade p => "failed to create " ++ String.ofList p
  | .targetNotMade p => "failed to create output file at " ++ String.ofList p

end Failure

/-- How a run ends. -/
inductive Outcome where
  | usage (e : UsageError)
  | failed (f : Failure)
  | finished (allValid : Bool)
  deriving DecidableEq, Repr

/-- The exit code of a run. -/
def Outcome.exitCode : Outcome → UInt32
  | .usage .help => 0
  | .usage _ => 2
  | .failed _ => 1
  | .finished allValid => if allValid then 0 else 1

variable {m : Type → Type} [Monad m] [Host m]

/-- The texts of what was read from a path, one to a line. -/
def interpret (path : Path) : Reading → Except Failure (List String)
  | .notOpened => .error (.inputNotOpened path)
  | .unreadable => .error (.lineNotRead 1 path)
  | .content b => (readTexts b).mapError (.lineNotRead · path)

/-- The texts to read from a path. -/
def readFrom (path : Path) : ExceptT Failure m (List String) := do
  let reading ← if path = ['-'] then (return .content (← Host.readInput (m := m)))
    else Host.readFile (m := m) path
  MonadExcept.ofExcept (interpret path reading)

/-- All texts to check: those among the arguments, and then those that are read. -/
def collect (o : Options) : ExceptT Failure m (List String) := do
  let more ← match o.input with
    | some path => readFrom path
    | none => pure []
  let texts := o.signatures ++ more
  if texts.isEmpty then throw .noSignatures
  return texts

/-- Makes the directories that lead to a file, where they are missing. -/
def makeParents (path : Path) : ExceptT Failure m Unit := do
  match path.parent? with
  | none => return
  | some parent =>
    if parent.isEmpty then return
    if ← Host.pathExists (m := m) parent then return
    unless ← Host.makeDirectories (m := m) parent do throw (.directoryNotMade parent)

/-- What the user is asked before a file is overwritten. -/
def overwriteQuestion (path : Path) : String :=
  "Are you sure you want to override output file at " ++ String.ofList path

/-- Whether a reply lets a file be overwritten. -/
def heed : Reply → Except Failure Unit
  | .yes => .ok ()
  | .no => .error .cancelled
  | .unasked => .error .notConfirmed

/-- Makes way for a file: removes the one that is there, given consent, and makes the directories
that lead to it. -/
def clear (path : Path) (overwrite : Bool) : ExceptT Failure m Unit := do
  if ← Host.isDirectory (m := m) path then throw (.targetIsDirectory path)
  if ← Host.pathExists (m := m) path then
    unless overwrite do
      let reply ← Host.confirm (m := m) (overwriteQuestion path)
      MonadExcept.ofExcept (heed reply)
    unless ← Host.removeFile (m := m) path do throw (.targetNotRemoved path)
  makeParents path

/-- Writes a report to the target, or else to standard output. -/
def deliver (o : Options) (report : Bytes) : ExceptT Failure m Unit :=
  match o.target with
  | none => Host.print (m := m) report
  | some path => do
    clear path o.overwrite
    unless ← Host.writeFile (m := m) path report do throw (.targetNotMade path)

/-- Checks and reports as the options ask. -/
def execute (o : Options) : ExceptT Failure m Bool := do
  let texts ← collect o
  let report := Report.draft o texts
  deliver o report.output.toList
  return report.allValid

/-- A whole run. -/
def run (args : List String) : m Outcome := do
  match Arguments.parse args with
  | .error e => return .usage e
  | .ok o =>
    match ← (execute o).run with
    | .ok allValid => return .finished allValid
    | .error f => return .failed f

end DBusTypes.Command
