import DBusTypes.Command.Run

/-!
# The program

The command on real files, with real standard input and output. Everything is decided in
`Command.run`; here its requests are carried out, and how it ended is told to the user.
-/

namespace DBusTypes

/-- Whether an action succeeds. -/
def succeeds {α : Type} (act : IO α) : IO Bool :=
  try
    discard act
    return true
  catch _ => return false

/-- All bytes that a stream has left. -/
partial def readAll (stream : IO.FS.Stream) (sofar : ByteArray) : IO ByteArray := do
  let chunk ← stream.read 65536
  if chunk.isEmpty then return sofar else readAll stream (sofar ++ chunk)

/-- Whether a path leads to a directory. -/
def leadsToDirectory (p : Path) : IO Bool :=
  try (← IO.FS.realPath (String.ofList p)).isDir
  catch _ => return false

/-- Whether a path leads anywhere. -/
def leadsAnywhere (p : Path) : IO Bool :=
  try (← IO.FS.realPath (String.ofList p)).pathExists
  catch _ => return false

/-- Reads the file at a path. -/
def readReal (p : Path) : IO Reading := do
  if ← leadsToDirectory p then return .unreadable
  try
    let bytes ← IO.FS.readBinFile (String.ofList p)
    return .content bytes.data.toList
  catch _ => return .notOpened

/-- Makes one directory at a path. -/
def makeReal (p : Path) : IO Disk.Making :=
  try
    IO.FS.createDir (String.ofList p)
    return .made
  catch
    | .noFileOrDirectory .. => return .parentMissing
    | _ => return .refused

/-- Asks the user at the terminal, if there is one. A reply is no unless it says yes. -/
def askReal (question : String) : IO Reply := do
  let screen ← IO.getStderr
  unless ← screen.isTty do return .unasked
  try
    screen.putStr (question ++ " [y/N] ")
    screen.flush
    let keyboard ← IO.FS.Handle.mk "/dev/tty" .read
    let line ← keyboard.getLine
    return if line.startsWith "y" || line.startsWith "Y" then .yes else .no
  catch _ => return .unasked

instance : Host IO where
  isDirectory := leadsToDirectory
  pathExists := leadsAnywhere
  readFile := readReal
  makeDirectory := makeReal
  writeFile p content := succeeds (IO.FS.writeBinFile (String.ofList p) ⟨content.toArray⟩)
  removeFile p := succeeds (IO.FS.removeFile (String.ofList p))
  readInput := return (← readAll (← IO.getStdin) .empty).data.toList
  print b := do (← IO.getStdout).write ⟨b.toArray⟩
  confirm := askReal

/-- How the program is called. -/
def usageText : String :=
  "Validates D-Bus type signatures and splits them into single complete types.\n" ++
  "\n" ++
  "Usage: [OPTIONS] [--] [SIGNATURE]...\n" ++
  "\n" ++
  "  -i, --input <PATH>            read signatures from a file, one per line (- for stdin)\n" ++
  "  -o, --output-format <FORMAT>  text, json or jsonl\n" ++
  "  -f, --output <PATH>           write to a file\n" ++
  "      --no-confirm-overwrite    overwrite that file if it exists\n" ++
  "      --tree                    show what is in containers\n" ++
  "      --no-max-length           allow signatures of more than 255 bytes\n" ++
  "  -t, --threads <NUMBER>        number of threads\n" ++
  "  -v                            say more\n" ++
  "  -h, --help                    show this text\n"

/-- A mistake in the arguments, in words. -/
def UsageError.message : UsageError → String
  | .invalidValue => "a value is missing or is not one of the possible ones"
  | .notNumber => "a value is not a number"
  | .unknownArgument => "unknown argument"
  | .needlessValue => "a value is given for an option that takes none"
  | .repeated => "an option is given more than once"
  | .help => "help"

/-- Tells the user how a run ended, unless the report says it all. -/
def announce : Command.Outcome → IO Unit
  | .usage .help => IO.print usageText
  | .usage e => IO.eprint ("error: " ++ e.message ++ "\n\n" ++ usageText)
  | .failed f => IO.eprintln ("Error: " ++ f.message)
  | .finished _ => return

end DBusTypes

/-- Runs the command with the arguments of the program. -/
def main (args : List String) : IO UInt32 := do
  let outcome : DBusTypes.Command.Outcome ← DBusTypes.Command.run args
  DBusTypes.announce outcome
  return outcome.exitCode
