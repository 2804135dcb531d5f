import DBusTypes.Signature
import DBusTypes.Json.Double
import DBusTypes.Text.Shortest

/-!
# Signatures as JSON

A signature is written as a string, its text, without its level. What is read is checked again,
against the limits of the protocol: a signature that was made under wider limits may be refused.

* `Signature.toJson` and `Signature.ofJson`
* `ReadError` — why a JSON value is no signature
-/

namespace DBusTypes

/-- A JSON value other than a string, where a signature was expected. -/
inductive Unexpected where
  | null
  | bool (b : Bool)
  | integer (n : Int)
  | float (x : Float)
  | sequence
  | map

/-- Why a JSON value is no signature. -/
inductive ReadError where
  | invalid (e : BuildError)
  | unexpected (u : Unexpected)

namespace Unexpected

def noun : Unexpected → String
  | .null => "null"
  | .bool b => "boolean `" ++ (if b then "true" else "false") ++ "`"
  | .integer n => "integer `" ++ toString n ++ "`"
  | .float x => "floating point `" ++ Shortest.text x ++ "`"
  | .sequence => "sequence"
  | .map => "map"

end Unexpected

namespace ReadError

def message : ReadError → String
  | .invalid e => e.message
  | .unexpected u => "invalid type: " ++ u.noun ++ ", expected a valid D-Bus type signature"

end ReadError

/-- A number where a signature was expected. A whole number is an integer if it fits in 64 bits. -/
def JsonNumber.unexpected (n : JsonNumber) : Unexpected :=
  match n with
  | .whole k => if Int64.minValue.toInt ≤ k ∧ k < UInt64.size then .integer k else .float n.toFloat
  | .decimal .. => .float n.toFloat

namespace Signature

def toJson (s : Signature) : Json := .string s.text

/-- The signature that a JSON value is written for. -/
def ofJson : Json → Except ReadError Signature
  | .string s => (ofBytes s).mapError .invalid
  | .null => .error (.unexpected .null)
  | .bool b => .error (.unexpected (.bool b))
  | .number n => .error (.unexpected n.unexpected)
  | .array _ => .error (.unexpected .sequence)
  | .object _ => .error (.unexpected .map)

end Signature

end DBusTypes
