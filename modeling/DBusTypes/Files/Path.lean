import DBusTypes.Bytes

/-!
# Paths

A path is a text in which slashes separate names. Empty names and `.` mean nothing, except that a
slash in front leads to the root, and that a `.` in front is a name of its own.

* `Path.names` — the names in a path
* `Path.parent?` — the path without its last name
* `Path.ancestors` — a path, its parent, the parent of that, and so on
-/

namespace DBusTypes

abbrev Path := List Char

/-- A name in a directory. -/
abbrev Name := List Char

/-- How many bytes a name or path takes. -/
def byteLength (s : List Char) : Nat := (utf8 (String.ofList s)).length

namespace Path

/-- The pieces of a path between slashes after `piece`, which holds the start of one in reverse.
Empty pieces are left out. -/
def namesFrom (piece : Name) : Path → List Name
  | [] => if piece.isEmpty then [] else [piece.reverse]
  | c :: rest =>
    if c = '/' then
      if piece.isEmpty then namesFrom [] rest else piece.reverse :: namesFrom [] rest
    else namesFrom (c :: piece) rest

def names (p : Path) : List Name := namesFrom [] p

def isAbsolute (p : Path) : Bool := p.head? == some '/'

/-- Whether a path ends in a slash, and so can only mean a directory. -/
def endsInSlash (p : Path) : Bool := p.getLast? == some '/'

/-- What a path starts with in front of all other names: a slash, or a `.` that is a name. -/
def front : Path → List Char
  | '/' :: _ => ['/']
  | ['.'] => ['.']
  | '.' :: '/' :: _ => ['.']
  | _ => []

/-- Drops slashes and names `.` off the end of a text that is given in reverse. -/
def dropIdle : List Char → List Char
  | '/' :: r => dropIdle r
  | ['.'] => []
  | '.' :: '/' :: r => dropIdle r
  | r => r

/-- Drops the last name, and the slash in front of it, off a text that is given in reverse. -/
def dropName (r : List Char) : List Char := (r.dropWhile (· != '/')).drop 1

/-- The path without its last name, if it has one. -/
def parent? (p : Path) : Option Path :=
  match dropIdle (p.drop (front p).length).reverse with
  | [] => if front p = ['.'] then some [] else none
  | r => some (front p ++ (dropIdle (dropName r)).reverse)

theorem length_front_le (p : Path) : (front p).length ≤ p.length := by
  unfold front
  split <;> simp

theorem length_dropIdle_le (r : List Char) : (dropIdle r).length ≤ r.length := by
  fun_induction dropIdle r with
  | case1 r ih => simp only [List.length_cons]; omega
  | case2 => simp
  | case3 r ih => simp only [List.length_cons]; omega
  | case4 => exact Nat.le_refl _

theorem length_dropName_lt {r : List Char} (h : r ≠ []) : (dropName r).length < r.length := by
  have h1 := (List.dropWhile_suffix (l := r) (· != '/')).length_le
  have h2 := List.length_pos_iff.mpr h
  simp only [dropName, List.length_drop]
  omega

/-- A parent is shorter than the path. -/
theorem length_lt_of_parent? {p q : Path} (h : p.parent? = some q) : q.length < p.length := by
  have hf := length_front_le p
  unfold parent? at h
  split at h
  · split at h
    · next hd =>
      obtain rfl := Option.some.inj h
      rw [hd] at hf
      simp only [List.length_cons, List.length_nil] at hf ⊢
      omega
    · simp at h
  · next hne =>
    obtain rfl := Option.some.inj h
    have h1 := length_dropIdle_le (p.drop (front p).length).reverse
    have h2 := length_dropName_lt hne
    have h3 := length_dropIdle_le (dropName (dropIdle (p.drop (front p).length).reverse))
    simp only [List.length_append, List.length_reverse, List.length_drop] at *
    omega

/-- A path, its parent, the parent of that, and so on. -/
def ancestors (p : Path) : List Path :=
  match _h : p.parent? with
  | some q => p :: ancestors q
  | none => [p]
termination_by p.length
decreasing_by exact length_lt_of_parent? _h

end Path

end DBusTypes
