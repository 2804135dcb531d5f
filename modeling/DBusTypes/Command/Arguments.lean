import DBusTypes.Files.Path

/-!
# Command-line arguments

An argument is a signature, or it sets an option. A long name follows two dashes, and short names
one. A value stands behind its option's name: as the next argument, after an equals sign, or, with a
short name, directly. After `--` every argument is a signature, and a lone `-` is a value.

## Which mistake is reported

Arguments are taken from left to right. A value that is given as an argument of its own is looked at
only when the next option or signature is met, or at the end; a name that does not exist, and a
value for an option that takes none, are reported at once and so before it.

* `Arguments.parse` — the options that arguments set, or the mistake in them
-/

namespace DBusTypes

/-- How results are written. -/
inductive Format where
  | text
  | json
  | jsonLines
  deriving DecidableEq, Repr

/-- What arguments ask for. -/
structure Options where
  signatures : List String
  /-- Where to read more signatures from; `-` is standard input. -/
  input : Option Path
  format : Format
  /-- The file to write to in place of standard output. -/
  target : Option Path
  /-- Whether a file may be overwritten. -/
  overwrite : Bool
  /-- Whether to show what is in the containers. -/
  tree : Bool
  /-- Whether signatures may be of any length. -/
  anyLength : Bool
  /-- How many threads may be used. The report does not depend on it. -/
  threads : Nat
  /-- How much may be said about the work while it is done. The report does not depend on it. -/
  verbosity : Nat
  deriving DecidableEq, Repr

/-- Why arguments set no options. -/
inductive UsageError where
  /-- A value is missing, or is not among those there are. -/
  | invalidValue
  /-- A value is no number. -/
  | notNumber
  | unknownArgument
  /-- An option that takes no value is given one. -/
  | needlessValue
  /-- An option is given twice. -/
  | repeated
  /-- No mistake: help is asked for. -/
  | help
  deriving DecidableEq, Repr

namespace Arguments

/-- The options that take a value. -/
inductive Setting where
  | input
  | format
  | target
  | threads
  deriving DecidableEq, Repr

/-- The options that take none. -/
inductive Switch where
  | overwrite
  | tree
  | anyLength
  | verbose
  | help
  deriving DecidableEq, Repr

/-- An option. -/
inductive Named where
  | setting (s : Setting)
  | switch (s : Switch)
  deriving DecidableEq, Repr

/-- The option of a long name. -/
def long? (name : String) : Option Named :=
  match name with
  | "input" => some (.setting .input)
  | "output-format" => some (.setting .format)
  | "output" => some (.setting .target)
  | "threads" => some (.setting .threads)
  | "no-confirm-overwrite" => some (.switch .overwrite)
  | "tree" => some (.switch .tree)
  | "no-max-length" => some (.switch .anyLength)
  | "help" => some (.switch .help)
  | _ => none

/-- The option of a short name. -/
def short? (name : Char) : Option Named :=
  match name with
  | 'i' => some (.setting .input)
  | 'o' => some (.setting .format)
  | 'f' => some (.setting .target)
  | 't' => some (.setting .threads)
  | 'v' => some (.switch .verbose)
  | 'h' => some (.switch .help)
  | _ => none

/-- What has been set so far. -/
structure Draft where
  signatures : List String
  input : Option String
  format : Option Format
  target : Option String
  threads : Option Nat
  overwrite : Bool
  tree : Bool
  anyLength : Bool
  verbosity : Nat
  deriving DecidableEq, Repr

/-- Nothing has been set. -/
def Draft.empty : Draft := ⟨[], none, none, none, none, false, false, false, 0⟩

/-- The options, with those that were not set at their defaults. -/
def Draft.options (d : Draft) : Options where
  signatures := d.signatures
  input := d.input.map String.toList
  format := d.format.getD .text
  target := d.target.map String.toList
  overwrite := d.overwrite
  tree := d.tree
  anyLength := d.anyLength
  threads := d.threads.getD 0
  verbosity := d.verbosity

/-- The format of a name. -/
def format? (name : String) : Option Format :=
  match name with
  | "text" => some .text
  | "json" => some .json
  | "jsonl" => some .jsonLines
  | _ => none

/-- A number of threads: decimal digits, perhaps after a plus sign, for a number of 64 bits. -/
def number? (s : String) : Option Nat :=
  let digits := match s.toList with
    | '+' :: r => r
    | r => r
  if digits.isEmpty || !digits.all Char.isDigit then none
  else
    let n := digits.foldl (fun n c => 10 * n + (c.toNat - '0'.toNat)) 0
    if n < UInt64.size then some n else none

/-- Sets an option to a value. That the value is missing counts before all else, and that the option
was set before counts before what the value is. -/
def assign (d : Draft) (s : Setting) : Option String → Except UsageError Draft
  | none => .error .invalidValue
  | some v =>
    match s with
    | .input => if d.input.isSome then .error .repeated else .ok { d with input := some v }
    | .target => if d.target.isSome then .error .repeated else .ok { d with target := some v }
    | .format =>
      if d.format.isSome then .error .repeated
      else
        match format? v with
        | some f => .ok { d with format := some f }
        | none => .error .invalidValue
    | .threads =>
      if d.threads.isSome then .error .repeated
      else
        match number? v with
        | some n => .ok { d with threads := some n }
        | none => .error .notNumber

/-- Sets an option that takes no value. Only the verbosity may be asked for more than once. -/
def turnOn (d : Draft) : Switch → Except UsageError Draft
  | .overwrite => if d.overwrite then .error .repeated else .ok { d with overwrite := true }
  | .tree => if d.tree then .error .repeated else .ok { d with tree := true }
  | .anyLength => if d.anyLength then .error .repeated else .ok { d with anyLength := true }
  | .verbose => .ok { d with verbosity := min (d.verbosity + 1) 255 }
  | .help => .error .help

/-- An option whose value is, or would be, an argument of its own, with the value once it came. -/
abbrev Pending := Option (Setting × Option String)

/-- Sets the option that is pending. -/
def flush (d : Draft) : Pending → Except UsageError Draft
  | none => .ok d
  | some (s, v) => assign d s v

/-- Sets options by short names that share one dash. The first that takes a value takes the rest of
the argument for it, if there is any. -/
def cluster (d : Draft) (pending : Pending) : List Char → Except UsageError (Draft × Pending)
  | [] => .ok (d, pending)
  | c :: rest =>
    match short? c with
    | none => .error .unknownArgument
    | some (.switch s) => do
      let d ← flush d pending
      let d ← turnOn d s
      cluster d none rest
    | some (.setting s) => do
      let d ← flush d pending
      match rest with
      | [] => return (d, some (s, none))
      | '=' :: v => return (← assign d s (some (String.ofList v)), none)
      | v => return (← assign d s (some (String.ofList v)), none)

/-- Sets an option by its long name, with what follows the name: nothing, or an equals sign and a
value. -/
def named (d : Draft) (pending : Pending) (name : String) (value : List Char) :
    Except UsageError (Draft × Pending) :=
  match long? name, value with
  | none, _ => .error .unknownArgument
  | some (.switch _), _ :: _ => .error .needlessValue
  | some (.switch s), [] => do
    let d ← flush d pending
    return (← turnOn d s, none)
  | some (.setting s), [] => do
    let d ← flush d pending
    return (d, some (s, none))
  | some (.setting s), _ :: v => do
    let d ← flush d pending
    return (← assign d s (some (String.ofList v)), none)

/-- Takes an argument that is a value or a signature. -/
def plain (d : Draft) (pending : Pending) (arg : String) : Except UsageError (Draft × Pending) :=
  match pending with
  | some (s, none) => .ok (d, some (s, some arg))
  | _ => do
    let d ← flush d pending
    return ({ d with signatures := d.signatures ++ [arg] }, none)

/-- Takes one argument other than `--`. -/
def take (d : Draft) (pending : Pending) (arg : String) : Except UsageError (Draft × Pending) :=
  match arg.toList with
  | '-' :: '-' :: rest =>
    named d pending (String.ofList (rest.takeWhile (· != '='))) (rest.dropWhile (· != '='))
  | '-' :: c :: rest => cluster d pending (c :: rest)
  | _ => plain d pending arg

/-- Takes arguments one after the other. -/
def takeAll (d : Draft) (pending : Pending) : List String → Except UsageError Draft
  | [] => flush d pending
  | arg :: args =>
    if arg = "--" then do
      let d ← flush d pending
      return { d with signatures := d.signatures ++ args }
    else
      match take d pending arg with
      | .ok (d, pending) => takeAll d pending args
      | .error e => .error e

/-- The options that arguments set. -/
def parse (args : List String) : Except UsageError Options :=
  (takeAll .empty none args).map Draft.options

end Arguments

end DBusTypes
