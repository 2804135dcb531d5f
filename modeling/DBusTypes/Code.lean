import DBusTypes.Bytes

/-!
# Type codes

A type starts with a one-byte code. The thirteen *basic* codes may be the key of a dict-entry. A
closing bracket is no code of its own: `(` and `{` stand for a whole struct and a whole dict-entry.

* `Code.ofByte?` and `Code.byte` — reading and writing a code
* `Code.ofByte?_byte` — every code reads back
* `Code.traits`, `Code.fixedSize?`, `Code.alignment` — how its values are marshalled
-/

namespace DBusTypes

/-- A basic type: one that may be the key of a dict-entry. -/
inductive Basic where
  | byte
  | boolean
  | int16
  | uint16
  | int32
  | uint32
  | int64
  | uint64
  | double
  | unixFd
  | string
  | objectPath
  | signature
  deriving DecidableEq, Repr

/-- The code a type starts with. -/
inductive Code where
  | basic (b : Basic)
  | variant
  | array
  | struct
  | dictEntry
  deriving DecidableEq, Repr

namespace Basic

def char : Basic → Char
  | .byte => 'y'
  | .boolean => 'b'
  | .int16 => 'n'
  | .uint16 => 'q'
  | .int32 => 'i'
  | .uint32 => 'u'
  | .int64 => 'x'
  | .uint64 => 't'
  | .double => 'd'
  | .unixFd => 'h'
  | .string => 's'
  | .objectPath => 'o'
  | .signature => 'g'

def name : Basic → String
  | .byte => "Byte"
  | .boolean => "Boolean"
  | .int16 => "Int16"
  | .uint16 => "UInt16"
  | .int32 => "Int32"
  | .uint32 => "UInt32"
  | .int64 => "Int64"
  | .uint64 => "UInt64"
  | .double => "Double"
  | .unixFd => "UnixFd"
  | .string => "String"
  | .objectPath => "ObjectPath"
  | .signature => "Signature"

/-- How many bytes a marshalled value takes, where that does not depend on the value. -/
def fixedSize? : Basic → Option Nat
  | .byte => some 1
  | .int16 | .uint16 => some 2
  | .boolean | .int32 | .uint32 | .unixFd => some 4
  | .int64 | .uint64 | .double => some 8
  | .string | .objectPath | .signature => none

/-- The number of bytes that a marshalled value is aligned to. -/
def alignment : Basic → Nat
  | .byte | .signature => 1
  | .int16 | .uint16 => 2
  | .boolean | .int32 | .uint32 | .unixFd | .string | .objectPath => 4
  | .int64 | .uint64 | .double => 8

end Basic

/-- What can be said of a type by its code alone. -/
inductive Trait where
  | basic
  | fixedSize
  | stringLike
  | container
  | variant
  deriving DecidableEq, Repr

namespace Trait

/-- The bit that stands for a trait in a set of traits. -/
def bit : Trait → Nat
  | .basic => 1
  | .fixedSize => 2
  | .stringLike => 4
  | .container => 8
  | .variant => 16

def name : Trait → String
  | .basic => "BASIC"
  | .fixedSize => "FIXED_SIZE"
  | .stringLike => "STRING_LIKE"
  | .container => "CONTAINER"
  | .variant => "VARIANT"

end Trait

namespace Code

def char : Code → Char
  | .basic b => b.char
  | .variant => 'v'
  | .array => 'a'
  | .struct => '('
  | .dictEntry => '{'

def byte (c : Code) : UInt8 := c.char.toUInt8

def all : List Code :=
  [.basic .byte, .basic .boolean, .basic .int16, .basic .uint16, .basic .int32, .basic .uint32,
    .basic .int64, .basic .uint64, .basic .double, .basic .unixFd, .basic .string,
    .basic .objectPath, .basic .signature, .variant, .array, .struct, .dictEntry]

/-- The code that a byte stands for. -/
def ofByte? (b : UInt8) : Option Code := all.find? (·.byte == b)

/-- Every code reads back from its byte. -/
theorem ofByte?_byte (c : Code) : ofByte? c.byte = some c := by
  cases c with
  | basic b => cases b <;> rfl
  | _ => rfl

/-- A byte that reads as a code is that code's byte. -/
theorem byte_of_ofByte? {b : UInt8} {c : Code} (h : ofByte? b = some c) : c.byte = b := by
  simpa using List.find?_some h

def name : Code → String
  | .basic b => b.name
  | .variant => "Variant"
  | .array => "Array"
  | .struct => "Struct"
  | .dictEntry => "DictEntry"

/-- Whether the type may be the key of a dict-entry. -/
def isBasic : Code → Bool
  | .basic _ => true
  | _ => false

/-- The traits of a type, in the order of their bits. A basic type has either values of a fixed
size or values that are strings. -/
def traits : Code → List Trait
  | .basic b => if b.fixedSize?.isSome then [.basic, .fixedSize] else [.basic, .stringLike]
  | .variant => [.variant]
  | .array | .struct | .dictEntry => [.container]

/-- How many bytes a marshalled value takes, where that does not depend on the value. -/
def fixedSize? : Code → Option Nat
  | .basic b => b.fixedSize?
  | _ => none

/-- The number of bytes that a marshalled value is aligned to. -/
def alignment : Code → Nat
  | .basic b => b.alignment
  | .variant => 1
  | .array => 4
  | .struct | .dictEntry => 8

end Code

/-! ## Closing brackets -/

/-- The byte that closes a struct. -/
def structEnd : UInt8 := 0x29

/-- The byte that closes a dict-entry. -/
def entryEnd : UInt8 := 0x7d

/-- A bracket that closes a struct is no type code. -/
theorem Code.ofByte?_structEnd : Code.ofByte? structEnd = none := rfl

/-- A bracket that closes a dict-entry is no type code. -/
theorem Code.ofByte?_entryEnd : Code.ofByte? entryEnd = none := rfl

end DBusTypes
