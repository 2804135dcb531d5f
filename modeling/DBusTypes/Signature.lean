import Std.Data.HashSet
import DBusTypes.Portion

/-!
# Signatures

A signature is a checked text together with the number of variants its value was found in. It is
compared, and hashed, by its text alone.

* `Signature.within`, `Signature.ofBytes` — checking a text
* `Signature.portions`, `Signature.excerpts` — its types
* `Signature.array`, `Signature.dict`, `Signature.struct` — larger signatures from smaller
* `Portion.signature` — a signature of a single type
-/

namespace DBusTypes

/-- A checked text, and in how many variants, one in the other, its value was found. -/
structure Signature where
  text : Bytes
  level : UInt32
  deriving Repr

namespace Signature

/-- Signatures with the same text are equal, whatever their levels. -/
instance : BEq Signature := ⟨fun a b => a.text == b.text⟩

instance : Hashable Signature := ⟨fun s => hash s.text⟩

theorem beq_iff (a b : Signature) : (a == b) = true ↔ a.text = b.text :=
  beq_iff_eq (a := a.text) (b := b.text)

instance : EquivBEq Signature where
  rfl := (beq_iff _ _).mpr rfl
  symm h := (beq_iff _ _).mpr ((beq_iff _ _).mp h).symm
  trans h h' := (beq_iff _ _).mpr (((beq_iff _ _).mp h).trans ((beq_iff _ _).mp h'))

instance : LawfulHashable Signature where
  hash_eq a b h := by
    change hash a.text = hash b.text
    rw [(beq_iff a b).mp h]

/-- The signature of a text that has been checked, outside of any variant. -/
def ofChecked (text : Bytes) : Signature := ⟨text, 0⟩

/-- The signature of a text, once it is checked against limits. -/
def within (limits : Limits) (text : Bytes) : Except BuildError Signature := do
  (check limits text).mapError .rejected
  return ofChecked text

/-- The signature of a text, once it is checked against the limits of the protocol. -/
def ofBytes (text : Bytes) : Except BuildError Signature := within .standard text

def empty : Signature := ofChecked []

instance : Inhabited Signature := ⟨empty⟩

/-- The same signature, found in another number of variants. -/
def withLevel (s : Signature) (level : UInt32) : Signature := { s with level := level }

def length (s : Signature) : Nat := s.text.length

def isEmpty (s : Signature) : Bool := s.text.isEmpty

/-! ## Its types -/

/-- The types, as parts of the text. -/
def portions (s : Signature) : Portions := .ofChecked s.text

/-- The types, cut out of the text. -/
def excerpts (s : Signature) : Excerpts := .ofChecked .sequence s.text

def count (s : Signature) : Nat := countTypes s.text

def isSingle (s : Signature) : Bool := s.count == 1

/-- Refuses a signature of no types or of several. -/
def requireOne (s : Signature) : Except BuildError Unit :=
  if s.isSingle then .ok () else .error (.notSingle s.count)

/-! ## Larger signatures -/

def array (element : Signature) : Except BuildError Signature := do
  element.requireOne
  ofBytes (Code.array.byte :: element.text)

/-- The signature of a dictionary, which is an array of dict-entries. The key is looked at before
the value. -/
def dict (key value : Signature) : Except BuildError Signature := do
  key.requireOne
  value.requireOne
  ofBytes (Code.array.byte :: Code.dictEntry.byte ::
    (key.text ++ value.text ++ [entryEnd]))

/-- The signature of a struct that has the types of all `fields`, one after the other. -/
def struct (fields : List Signature) : Except BuildError Signature :=
  let interior := fields.flatMap (·.text)
  if interior.isEmpty then .error (.rejected (.fault ⟨1, .emptyStruct⟩))
  else ofBytes (Code.struct.byte :: (interior ++ [structEnd]))

end Signature

/-- The signature of a portion alone, outside of any variant. Its text has been checked as a part of
a larger one. -/
def Portion.signature (p : Portion) : Signature := .ofChecked p.text

end DBusTypes
