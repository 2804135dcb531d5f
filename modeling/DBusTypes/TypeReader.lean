import DBusTypes.Nest

/-!
# Reading one type

A `TypeReader` reads exactly one single complete type off the front of a byte string, and says where
it ends. Whoever wants all types of a text asks it again for the rest.

* `TypeReader.read`, `TypeReader.readAt` — the type in front of some bytes, or at some offset
* `TypeReader.read_some`, `TypeReader.readAt_some` — reading moves forward and stays in the text
-/

namespace DBusTypes

/-- A reader of single complete types. It starts each type with nothing open, whatever was left open
before. -/
structure TypeReader where
  limit : Depth
  scope : Scope
  /-- What was open where reading last stopped: nothing, unless it stopped at a fault. -/
  last : Nest
  deriving DecidableEq, Repr

namespace TypeReader

/-- A reader that has read nothing. -/
def new (limit : Depth) (scope : Scope) : TypeReader := ⟨limit, scope, .start⟩

/-- A reader for a text that has been checked before. It allows every depth that can be counted. -/
def unbounded (scope : Scope) : TypeReader := new .top scope

/-- Reads the type at the front of `bytes`, which start at `offset`. Gives the offset behind it and
the bytes that follow, or nothing if there are no bytes. -/
def read (r : TypeReader) (offset : Nat) (bytes : Bytes) :
    TypeReader × Except Fault (Option (Nat × Bytes)) :=
  if bytes.isEmpty then (r, .ok none)
  else
    let result := Nest.start.run r.limit r.scope offset bytes
    ({ r with last := result.1 }, result.2.map some)

/-- Reads the type that starts at `start` in `text`, and gives the offset behind it. -/
def readAt (r : TypeReader) (text : Bytes) (start : Nat) :
    TypeReader × Except Fault (Option Nat) :=
  let result := r.read start (text.drop start)
  (result.1, result.2.map (·.map Prod.fst))

/-- Reading moves forward, past at least one byte. -/
theorem read_some {r : TypeReader} {offset stop : Nat} {bytes rest : Bytes}
    (h : (r.read offset bytes).2 = .ok (some (stop, rest))) :
    ∃ front, front ≠ [] ∧ bytes = front ++ rest ∧ stop = offset + front.length := by
  unfold read at h
  split at h
  · simp at h
  · cases hr : (Nest.start.run r.limit r.scope offset bytes).2 with
    | error f => simp [hr, Except.map] at h
    | ok p =>
      obtain rfl : p = (stop, rest) := by simpa [hr, Except.map] using h
      exact Nest.run_ok hr

theorem length_lt_of_read {r : TypeReader} {offset stop : Nat} {bytes rest : Bytes}
    (h : (r.read offset bytes).2 = .ok (some (stop, rest))) : rest.length < bytes.length := by
  obtain ⟨front, hne, rfl, -⟩ := read_some h
  have := List.length_pos_iff.mpr hne
  simp only [List.length_append]
  omega

/-- A type that was read lies in the text and is not empty. -/
theorem readAt_some {r : TypeReader} {text : Bytes} {start stop : Nat}
    (h : (r.readAt text start).2 = .ok (some stop)) : start < stop ∧ stop ≤ text.length := by
  cases hr : (r.read start (text.drop start)).2 with
  | error f => simp [readAt, hr, Except.map] at h
  | ok p =>
    cases p with
    | none => simp [readAt, hr, Except.map] at h
    | some p =>
      obtain rfl : p.1 = stop := by simpa [readAt, hr, Except.map] using h
      obtain ⟨front, hne, hf, hs⟩ := read_some hr
      have h1 := List.length_pos_iff.mpr hne
      have h2 := congrArg List.length hf
      simp only [List.length_append, List.length_drop] at h2
      omega

end TypeReader

end DBusTypes
