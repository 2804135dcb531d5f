import DBusTypes.TypeReader

/-!
# Checking a text

A signature is a sequence of zero or more single complete types, no longer than its limit.

* `check` — whether a byte string is a signature within limits, or else the first thing wrong in it
* `countTypes` — the number of types in a text that has been checked
-/

namespace DBusTypes

/-- Reads types up to the end of the bytes, which start at `offset`. -/
def checkFrom (r : TypeReader) (offset : Nat) (bytes : Bytes) : Except Fault Unit :=
  match _h : r.read offset bytes with
  | (_, .error f) => .error f
  | (_, .ok none) => .ok ()
  | (r', .ok (some (stop, rest))) => checkFrom r' stop rest
termination_by bytes.length
decreasing_by exact TypeReader.length_lt_of_read (congrArg Prod.snd _h)

/-- Whether a byte string has at most `limit` bytes, if there is a limit. -/
def checkLength (limit : Option Nat) (bytes : Bytes) : Except Rejection Unit :=
  match limit with
  | some limit => if limit < bytes.length then .error (.tooLong bytes.length limit) else .ok ()
  | none => .ok ()

/-- Whether a byte string is a signature within limits. Its length is looked at first. -/
def check (limits : Limits) (bytes : Bytes) : Except Rejection Unit := do
  checkLength limits.length bytes
  (checkFrom (.new limits.depth .sequence) 0 bytes).mapError .fault

/-- The number of types that can be read from the bytes, added to `count`. -/
def countFrom (r : TypeReader) (count offset : Nat) (bytes : Bytes) : Nat :=
  match h : r.read offset bytes with
  | (r', .ok (some (stop, rest))) => countFrom r' (count + 1) stop rest
  | _ => count
termination_by bytes.length
decreasing_by exact TypeReader.length_lt_of_read (congrArg Prod.snd h)

/-- The number of single complete types in a text that has been checked. -/
def countTypes (bytes : Bytes) : Nat := countFrom (.unbounded .sequence) 0 0 bytes

end DBusTypes
