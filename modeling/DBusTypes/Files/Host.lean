import DBusTypes.Files.Disk

/-!
# What a program needs from its surroundings

A program that reads and writes files is written for any `Host`. One host is a disk together with
what is on standard input and output; real files are another.

A program may also ask its user to confirm what it is about to do. In a world by itself there is
nobody to ask; a reply that is fixed beforehand makes any surroundings one where somebody is there.

* `Host` — the operations
* `Reply` — what comes of asking the user
* `World` — a disk, standard input and standard output
* `Host.makeDirectories` — makes a directory and all above it that are missing
-/

namespace DBusTypes

/-- What came of reading a file. -/
inductive Reading where
  | content (b : Bytes)
  /-- It can be opened, but is a directory. -/
  | unreadable
  | notOpened
  deriving DecidableEq, Repr

/-- What comes of asking the user to confirm something. -/
inductive Reply where
  | yes
  | no
  /-- There is no terminal to ask at. -/
  | unasked
  deriving DecidableEq, Repr

/-- Surroundings with files, an input and an output, and perhaps a user. An operation that can fail
says whether it succeeded, and changes nothing if it did not. -/
class Host (m : Type → Type) where
  isDirectory : Path → m Bool
  pathExists : Path → m Bool
  readFile : Path → m Reading
  /-- Makes one directory, in one that exists. -/
  makeDirectory : Path → m Disk.Making
  /-- Writes a file, in place of the one that may be there. -/
  writeFile : Path → Bytes → m Bool
  removeFile : Path → m Bool
  readInput : m Bytes
  print : Bytes → m Unit
  /-- Shows a question to the user, and waits for the reply. -/
  confirm : String → m Reply

namespace Host

variable {m : Type → Type} [Monad m] [Host m]

/-- Makes the first of the directories, each of which is in the next, and before it those that are
missing. A directory that exists already is as good as one that was made. -/
def makeChain : List Path → m Bool
  | [] => return false
  | p :: above => do
    if p.isEmpty then return true
    match ← makeDirectory p with
    | .made => return true
    | .refused => isDirectory p
    | .parentMissing =>
      if ← makeChain above then
        match ← makeDirectory p with
        | .made => return true
        | _ => isDirectory p
      else return false

/-- Makes a directory and all above it that are missing. -/
def makeDirectories (p : Path) : m Bool := makeChain p.ancestors

/-- The same surroundings with a user who gives one reply whatever the question. -/
instance : Host (ReaderT Reply m) where
  isDirectory p := liftM (isDirectory p : m Bool)
  pathExists p := liftM (pathExists p : m Bool)
  readFile p := liftM (readFile p : m Reading)
  makeDirectory p := liftM (makeDirectory p : m Disk.Making)
  writeFile p content := liftM (writeFile p content : m Bool)
  removeFile p := liftM (removeFile p : m Bool)
  readInput := liftM (readInput : m Bytes)
  print b := liftM (print b : m Unit)
  confirm _ := read

end Host

/-- A disk, what is left on standard input, and what has been written to standard output. -/
structure World where
  disk : Disk
  input : Bytes
  output : Bytes
  deriving DecidableEq, Repr

namespace World

/-- Replaces the disk by what a change makes of it. -/
def change {α : Type} (f : Disk → Disk × α) : StateM World α := do
  let w ← get
  let r := f w.disk
  set { w with disk := r.1 }
  return r.2

instance : Host (StateM World) where
  isDirectory p := return (← get).disk.isDirectory p
  pathExists p := return (← get).disk.pathExists p
  readFile p := return match (← get).disk.read? p with
    | some (.file b) => .content b
    | some .directory => .unreadable
    | none => .notOpened
  makeDirectory p := change (·.makeDirectory p)
  writeFile p content := change (·.writeFile p content)
  removeFile p := change (·.removeFile p)
  readInput := modifyGet fun w => (w.input, { w with input := [] })
  print b := modify fun w => { w with output := w.output ++ b }
  confirm _ := return .unasked

end World

end DBusTypes
