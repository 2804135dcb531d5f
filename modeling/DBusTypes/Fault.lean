import DBusTypes.Text.Escape

/-!
# What can be wrong with a signature

A byte string is refused either for a `Fault`, which has a place and a cause, or because it is too
long, which is noticed before any of it is read.

* `Cause` — the ways to break the grammar or a limit on nesting
* `Fault` — a cause and the offset it is reported at
* `Rejection` — why a byte string is no signature
* `BuildError` — why an operation on signatures gives none
-/

namespace DBusTypes

/-- Which of the two depths is meant. -/
inductive Nesting where
  | arrayOrStruct
  | dictEntry
  deriving DecidableEq, Repr

/-- The ways to break the grammar or a limit on nesting. -/
inductive Cause where
  /-- The byte is no type code and no bracket. -/
  | unknownCode (code : UInt8)
  /-- A struct is closed before its first field. -/
  | emptyStruct
  /-- A dict-entry starts where no array element does. -/
  | entryOutsideArray
  /-- The first type of a dict-entry is not basic, or is missing. -/
  | keyNotBasic
  /-- A dict-entry holds `found` types. -/
  | entryArity (found : Nat)
  /-- The text ends inside a struct or dict-entry. -/
  | unterminated
  /-- A bracket closes what is not open. -/
  | unbalanced (bracket : UInt8)
  /-- A container is opened at a depth that has reached its limit. -/
  | tooDeep (nesting : Nesting) (limit : UInt32)
  /-- An array is not followed by its element type. -/
  | danglingArray
  deriving DecidableEq, Repr

/-- A cause and the offset it is reported at: that of the offending byte, or that of the opening
byte where the trouble is that something never came. -/
structure Fault where
  offset : Nat
  cause : Cause
  deriving DecidableEq, Repr

/-- Why a byte string is no signature. -/
inductive Rejection where
  | fault (f : Fault)
  | tooLong (length limit : Nat)
  deriving DecidableEq, Repr

/-- Why an operation on signatures gives none. -/
inductive BuildError where
  | rejected (r : Rejection)
  /-- Exactly one type was asked for. -/
  | notSingle (found : Nat)
  /-- There is no memory for a text of that length. -/
  | outOfMemory (length : Nat)
  deriving DecidableEq, Repr

/-! ## Wording -/

namespace Nesting

/-- What a message calls the containers that a depth counts. -/
def noun : Nesting → String
  | .arrayOrStruct => "array/struct"
  | .dictEntry => "dict-entry"

def name : Nesting → String
  | .arrayOrStruct => "ArrayOrStruct"
  | .dictEntry => "DictEntry"

end Nesting

namespace Cause

def kind : Cause → String
  | .unknownCode _ => "UnknownTypeCode"
  | .emptyStruct => "EmptyStruct"
  | .entryOutsideArray => "DictEntryOutsideArray"
  | .keyNotBasic => "InvalidDictKeyType"
  | .entryArity _ => "WrongDictEntryArity"
  | .unterminated => "UnterminatedContainer"
  | .unbalanced _ => "UnbalancedCloseBracket"
  | .tooDeep n _ => "NestingTooDeep(" ++ n.name ++ ")"
  | .danglingArray => "DanglingArrayMarker"

def message : Cause → String
  | .unknownCode c => "unknown type code `" ++ String.ofList (escapeByte c) ++ "`"
  | .emptyStruct => "struct has no fields"
  | .entryOutsideArray => "dict-entry is only allowed as the element type of an array"
  | .keyNotBasic => "dict-entry key must be a basic type"
  | .entryArity n => "dict-entry must hold exactly two types, found " ++ toString n
  | .unterminated => "container opened here is never closed"
  | .unbalanced b => "unbalanced close bracket `" ++ String.ofList (escapeByte b) ++ "`"
  | .tooDeep n l => n.noun ++ " nesting exceeds the limit of " ++ toString l.toNat
  | .danglingArray => "array marker has no element type"

end Cause

namespace Fault

def message (f : Fault) : String := "offset " ++ toString f.offset ++ ": " ++ f.cause.message

/-- The same fault in a text that has `n` more bytes in front. -/
def shift (n : Nat) (f : Fault) : Fault := { f with offset := n + f.offset }

end Fault

namespace Rejection

def kind : Rejection → String
  | .fault f => f.cause.kind
  | .tooLong .. => "SignatureTooLong"

/-- The offset a rejection is reported at. A text that is too long is at fault from the first byte
past the limit on. -/
def offset : Rejection → Nat
  | .fault f => f.offset
  | .tooLong _ limit => limit

def message : Rejection → String
  | .fault f => f.message
  | .tooLong length limit =>
    "signature is " ++ toString length ++ " bytes long, the limit is " ++ toString limit

end Rejection

namespace BuildError

def message : BuildError → String
  | .rejected r => "corrupt type signature: " ++ r.message
  | .notSingle found => "expected a single complete type, found " ++ toString found
  | .outOfMemory length => "failed to allocate " ++ toString length ++ " bytes for a signature"

end BuildError

end DBusTypes
