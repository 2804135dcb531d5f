import DBusTypes.Bytes

/-!
# JSON values

A string is kept as its UTF-8 bytes, and the members of an object in the order they are written in.
A number that is written with a fraction or an exponent is told from a whole number.
-/

namespace DBusTypes

inductive JsonNumber where
  | whole (n : Int)
  /-- The number `whole.fraction * 10 ^ exponent`, or its negative, digit by digit. -/
  | decimal (negative : Bool) (whole fraction : List Nat) (exponent : Int)
  deriving DecidableEq, Repr

inductive Json where
  | null
  | bool (b : Bool)
  | number (n : JsonNumber)
  | string (s : Bytes)
  | array (items : List Json)
  | object (members : List (Bytes × Json))
  deriving Repr

namespace Json

def nat (n : Nat) : Json := .number (.whole n)

def text (s : String) : Json := .string (utf8 s)

/-- An object, with its keys given as texts. -/
def record (members : List (String × Json)) : Json :=
  .object (members.map fun m => (utf8 m.1, m.2))

/-- The value of a key of an object. -/
def get? (key : String) : Json → Option Json
  | .object members => (members.find? (·.1 == utf8 key)).map Prod.snd
  | _ => none

end Json

end DBusTypes
