import DBusTypes.Files.Path

/-!
# A directory tree

A disk is a tree of directories and regular files, with one directory in it that relative paths
start from. Paths are followed name by name, and every name but the last has to lead to a directory.

* `Disk.find` — where a path leads
* `Disk.place` — where a path that may not lead anywhere yet would be made
* `Disk.makeDirectory`, `Disk.writeFile`, `Disk.removeFile` — changes
* `Disk.node?_set`, `Disk.node?_remove` — a change at one location leaves all others as they were
-/

namespace DBusTypes

/-- The names that lead from the root to some place. -/
abbrev Location := List Name

inductive Node where
  | file (content : Bytes)
  | directory
  deriving DecidableEq, Repr

/-- A directory tree, and the location that relative paths start from. -/
structure Disk where
  nodes : List (Location × Node)
  here : Location
  deriving DecidableEq, Repr

/-- Why a path leads nowhere. -/
inductive PathError where
  /-- There is nothing of some name. -/
  | missing
  /-- A name is looked up in a file. -/
  | notDirectory
  /-- A name, or the path, has too many bytes. -/
  | tooLong
  /-- The path has a zero character in it, which no name may have. -/
  | zeroCharacter
  deriving DecidableEq, Repr

/-- Taking away what stands under one key leaves all others as they were. -/
theorem lookup_filter_ne {α β : Type} [BEq α] [LawfulBEq α] {l k : α} (h : l ≠ k)
    (entries : List (α × β)) : (entries.filter (·.1 != k)).lookup l = entries.lookup l := by
  induction entries with
  | nil => rfl
  | cons x xs ih =>
    obtain ⟨m, n⟩ := x
    by_cases hm : m = k
    · subst hm
      have hb : (l == m) = false := by simpa using h
      simp [List.lookup_cons, hb, ih]
    · simp [List.lookup_cons, hm, ih]

namespace Disk

def nameLimit : Nat := 255

def pathLimit : Nat := 4095

/-- What stands at a location. There is always a root. -/
def node? (d : Disk) (l : Location) : Option Node :=
  if l = [] then some .directory else d.nodes.lookup l

/-- Puts something at a location. -/
def set (d : Disk) (l : Location) (n : Node) : Disk :=
  { d with nodes := (l, n) :: d.nodes.filter (·.1 != l) }

/-- Takes away what stands at a location. -/
def remove (d : Disk) (l : Location) : Disk := { d with nodes := d.nodes.filter (·.1 != l) }

/-- Putting something at a location leaves all others as they were. -/
theorem node?_set {d : Disk} {l k : Location} {n : Node} (h : k ≠ []) :
    (d.set k n).node? l = if l = k then some n else d.node? l := by
  by_cases hl : l = k
  · subst hl
    simp [node?, set, h]
  · have hb : (l == k) = false := by simpa using hl
    simp [node?, set, List.lookup_cons, hl, hb, lookup_filter_ne hl]

/-- Taking away what stands at a location leaves all others as they were. -/
theorem node?_remove {d : Disk} {l k : Location} (h : l ≠ k) :
    (d.remove k).node? l = d.node? l := by
  simp [node?, remove, lookup_filter_ne h]

/-! ## Following paths -/

def enter (d : Disk) (l : Location) (name : Name) : Except PathError Location :=
  if d.node? l ≠ some .directory then .error .notDirectory
  else if name = ['.'] then .ok l
  else if name = ['.', '.'] then .ok l.dropLast
  else if nameLimit < byteLength name then .error .tooLong
  else if (d.node? (l ++ [name])).isSome then .ok (l ++ [name])
  else .error .missing

/-- Follows names one after the other. -/
def walk (d : Disk) (l : Location) : List Name → Except PathError Location
  | [] => .ok l
  | name :: names =>
    match d.enter l name with
    | .ok l' => d.walk l' names
    | .error e => .error e

/-- The location that a path starts from. -/
def origin (d : Disk) (p : Path) : Location := if p.isAbsolute then [] else d.here

/-- The location that a path leads to. -/
def find (d : Disk) (p : Path) : Except PathError Location :=
  if p.contains '\x00' then .error .zeroCharacter
  else if p.isEmpty then .error .missing
  else if pathLimit < byteLength p then .error .tooLong
  else
    match d.walk (d.origin p) p.names with
    | .error e => .error e
    | .ok l =>
      if p.endsInSlash && d.node? l != some .directory then .error .notDirectory else .ok l

/-- The location that a path would be made at. There is none if the path ends in a name for a
directory that exists in any case, such as `..`. -/
def place (d : Disk) (p : Path) : Except PathError (Option Location) :=
  if p.contains '\x00' then .error .zeroCharacter
  else if p.isEmpty then .error .missing
  else if pathLimit < byteLength p then .error .tooLong
  else
    match p.names.getLast? with
    | none => .ok none
    | some name =>
      match d.walk (d.origin p) p.names.dropLast with
      | .error e => .error e
      | .ok l =>
        if d.node? l ≠ some .directory then .error .notDirectory
        else if name = ['.'] ∨ name = ['.', '.'] then .ok none
        else if nameLimit < byteLength name then .error .tooLong
        else .ok (some (l ++ [name]))

/-! ## Reading -/

def isDirectory (d : Disk) (p : Path) : Bool :=
  match d.find p with
  | .ok l => d.node? l == some .directory
  | .error _ => false

def pathExists (d : Disk) (p : Path) : Bool :=
  match d.find p with
  | .ok _ => true
  | .error _ => false

def read? (d : Disk) (p : Path) : Option Node :=
  match d.find p with
  | .ok l => d.node? l
  | .error _ => none

/-! ## Changing -/

/-- What came of making a directory. -/
inductive Making where
  | made
  /-- The directory to make it in is missing. -/
  | parentMissing
  /-- It cannot be made for another reason: something is there already, say. -/
  | refused
  deriving DecidableEq, Repr

/-- Makes one directory. -/
def makeDirectory (d : Disk) (p : Path) : Disk × Making :=
  match d.place p with
  | .error .missing => (d, .parentMissing)
  | .error _ | .ok none => (d, .refused)
  | .ok (some l) => if (d.node? l).isSome then (d, .refused) else (d.set l .directory, .made)

/-- Writes a file, in place of the one that may be there. Fails if no file can be at that path. -/
def writeFile (d : Disk) (p : Path) (content : Bytes) : Disk × Bool :=
  match d.place p with
  | .ok (some l) =>
    if p.endsInSlash || d.node? l == some .directory then (d, false)
    else (d.set l (.file content), true)
  | _ => (d, false)

def removeFile (d : Disk) (p : Path) : Disk × Bool :=
  match d.find p with
  | .ok l =>
    match d.node? l with
    | some (.file _) => (d.remove l, true)
    | _ => (d, false)
  | .error _ => (d, false)

/-- All that is in the directory that relative paths start from, with names that lead there from it:
a directory before what is in it, and its entries by name. -/
def listing (d : Disk) : List (Location × Node) :=
  let inside := d.nodes.filterMap fun (l, n) =>
    if d.here.isPrefixOf l && l != d.here then some (l.drop d.here.length, n) else none
  inside.mergeSort fun a b => !b.1.lex a.1 fun x y => x.lex y fun c d => c.toNat < d.toNat

end Disk

end DBusTypes
