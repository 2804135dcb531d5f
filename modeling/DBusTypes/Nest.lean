import DBusTypes.Bytes
import DBusTypes.Code
import DBusTypes.Limits
import DBusTypes.Fault

/-!
# What is open inside a type

While a type is read, a `Nest` keeps the containers that are open, innermost first, and how many
there are of each sort, so that types of any depth are read in constant stack.

## How a byte is taken

* a code that opens a container has to fit where it stands, and its depth has to allow one more
* a closing bracket has to match the innermost container, which has to have what it needs
* any other code is a whole type

A whole type takes its place in the innermost struct or dict-entry. Inside an array it makes the
array whole as well, and so on outwards (`Nest.settle`). The type has been read when nothing is open
any more.

## Main statements

* `Nest.run_ok` — a type that was read has at least one byte, and the rest is what follows it
-/

namespace DBusTypes

/-- The sorts of containers. -/
inductive Container where
  | array
  | struct
  | dictEntry
  deriving DecidableEq, Repr

/-- A container that is open. -/
structure Opened where
  container : Container
  /-- The offset of the byte that opened it. -/
  start : Nat
  /-- How many whole types a struct or dict-entry has so far. -/
  held : Nat
  deriving DecidableEq, Repr

/-- What a byte string is read as: types one after the other, or what follows the marker of an
array, which may also be a dict-entry. -/
inductive Scope where
  | sequence
  | element
  deriving DecidableEq, Repr

/-- The containers that are open at some point inside a type. -/
structure Nest where
  /-- What is open, innermost first. -/
  opened : List Opened
  /-- How much is open, by sort. -/
  depth : Depth
  deriving DecidableEq, Repr

namespace Nest

/-- Nothing is open: the type has yet to start. -/
def start : Nest := ⟨[], .zero⟩

/-- Whether what comes next is the element of an array, and so may be a dict-entry. -/
def allowsEntry (scope : Scope) (s : Nest) : Bool :=
  match s.opened with
  | [] => scope == .element
  | top :: _ => top.container == .array

/-- Whether a type that starts at `offset` may stand in the innermost container. Only a dict-entry
is particular: its first type has to be basic, and there is no third. -/
def fits (offset : Nat) (basic : Bool) (s : Nest) : Except Fault Unit :=
  match s.opened with
  | ⟨.dictEntry, _, held⟩ :: _ =>
    if held = 0 ∧ basic = false then .error ⟨offset, .keyNotBasic⟩
    else if 2 ≤ held then .error ⟨offset, .entryArity (held + 1)⟩
    else .ok ()
  | _ => .ok ()

/-- Opens an array or struct. -/
def enter (limit : Depth) (container : Container) (offset : Nat) (s : Nest) : Except Fault Nest :=
  if limit.containers ≤ s.depth.containers then
    .error ⟨offset, .tooDeep .arrayOrStruct limit.containers⟩
  else
    .ok ⟨⟨container, offset, 0⟩ :: s.opened, { s.depth with containers := s.depth.containers + 1 }⟩

/-- Opens a dict-entry. -/
def enterEntry (limit : Depth) (offset : Nat) (s : Nest) : Except Fault Nest :=
  if limit.entries ≤ s.depth.entries then
    .error ⟨offset, .tooDeep .dictEntry limit.entries⟩
  else
    .ok ⟨⟨.dictEntry, offset, 0⟩ :: s.opened, { s.depth with entries := s.depth.entries + 1 }⟩

/-- Counts a whole type where it stands: arrays that waited for it are whole themselves, and the
first struct or dict-entry outside of them has one more. -/
def settle : List Opened → Depth → Nest
  | [], depth => ⟨[], depth⟩
  | ⟨.array, _, _⟩ :: outer, depth =>
    settle outer { depth with containers := depth.containers - 1 }
  | top :: outer, depth => ⟨{ top with held := top.held + 1 } :: outer, depth⟩

/-- Closes the struct that is innermost. -/
def closeStruct (bracket : UInt8) (offset : Nat) (s : Nest) : Except Fault Nest :=
  match s.opened with
  | ⟨.array, start, _⟩ :: _ => .error ⟨start, .danglingArray⟩
  | ⟨.struct, _, held⟩ :: outer =>
    if held = 0 then .error ⟨offset, .emptyStruct⟩
    else .ok (settle outer { s.depth with containers := s.depth.containers - 1 })
  | _ => .error ⟨offset, .unbalanced bracket⟩

/-- Closes the dict-entry that is innermost. -/
def closeEntry (bracket : UInt8) (offset : Nat) (s : Nest) : Except Fault Nest :=
  match s.opened with
  | ⟨.array, start, _⟩ :: _ => .error ⟨start, .danglingArray⟩
  | ⟨.dictEntry, _, held⟩ :: outer =>
    if held = 0 then .error ⟨offset, .keyNotBasic⟩
    else if held ≠ 2 then .error ⟨offset, .entryArity held⟩
    else .ok (settle outer { s.depth with entries := s.depth.entries - 1 })
  | _ => .error ⟨offset, .unbalanced bracket⟩

/-- Takes the byte at `offset`. -/
def feed (limit : Depth) (scope : Scope) (offset : Nat) (byte : UInt8) (s : Nest) :
    Except Fault Nest :=
  match Code.ofByte? byte with
  | some .array => do s.fits offset false; s.enter limit .array offset
  | some .struct => do s.fits offset false; s.enter limit .struct offset
  | some .dictEntry =>
    if s.allowsEntry scope then s.enterEntry limit offset
    else .error ⟨offset, .entryOutsideArray⟩
  | some code => do s.fits offset code.isBasic; return settle s.opened s.depth
  | none =>
    if byte = structEnd then s.closeStruct byte offset
    else if byte = entryEnd then s.closeEntry byte offset
    else .error ⟨offset, .unknownCode byte⟩

/-- What is wrong with a text that ends here, inside a type. -/
def unfinished (s : Nest) : Fault :=
  match s.opened with
  | ⟨.array, start, _⟩ :: _ => ⟨start, .danglingArray⟩
  | top :: _ => ⟨top.start, .unterminated⟩
  | [] => ⟨0, .unterminated⟩

/-- Takes bytes until a type is whole. Gives the last state reached, and either a fault or the
offset behind the type and the bytes that follow it. -/
def run (limit : Depth) (scope : Scope) :
    Nest → Nat → Bytes → Nest × Except Fault (Nat × Bytes)
  | s, _, [] => (s, .error s.unfinished)
  | s, offset, byte :: rest =>
    match s.feed limit scope offset byte with
    | .error f => (s, .error f)
    | .ok s' =>
      if s'.opened.isEmpty then (s', .ok (offset + 1, rest))
      else run limit scope s' (offset + 1) rest

/-- A type that was read has at least one byte, and the rest is what follows it. -/
theorem run_ok {limit : Depth} {scope : Scope} {s : Nest} {offset stop : Nat}
    {bytes rest : Bytes} (h : (run limit scope s offset bytes).2 = .ok (stop, rest)) :
    ∃ front, front ≠ [] ∧ bytes = front ++ rest ∧ stop = offset + front.length := by
  induction bytes generalizing s offset with
  | nil => simp [run] at h
  | cons byte bytes ih =>
    unfold run at h
    split at h
    · simp at h
    · next s' _ =>
      split at h
      · obtain ⟨rfl, rfl⟩ : offset + 1 = stop ∧ bytes = rest := by simpa using h
        exact ⟨[byte], by simp, by simp, by simp⟩
      · obtain ⟨front, _, rfl, rfl⟩ := ih h
        exact ⟨byte :: front, by simp, by simp, by simp; omega⟩

end Nest

end DBusTypes
