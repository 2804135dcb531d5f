import DBusTypes.Json.Basic
import DBusTypes.Text.Escape

/-!
# Writing JSON

* `Json.compact` — on one line, without blanks
* `Json.pretty` — one item or member to a line, indented by two spaces a level; an empty array is
  `[]`

In a string, quotes, backslashes and the bytes below 0x20 are escaped, and nothing else is.
-/

namespace DBusTypes.Json

def escape (b : UInt8) : Bytes :=
  if b = 0x22 then utf8 "\\\""
  else if b = 0x5c then utf8 "\\\\"
  else if b = 0x08 then utf8 "\\b"
  else if b = 0x0c then utf8 "\\f"
  else if b = 0x0a then utf8 "\\n"
  else if b = 0x0d then utf8 "\\r"
  else if b = 0x09 then utf8 "\\t"
  else if b < 0x20 then utf8 "\\u00" ++ (hexPair b).map Char.toUInt8
  else [b]

def quoted (s : Bytes) : Bytes := 0x22 :: (s.flatMap escape ++ [0x22])

def numeral : JsonNumber → Bytes
  | .whole n => utf8 (toString n)
  | .decimal negative whole fraction exponent =>
    let digits (ds : List Nat) : String := String.join (ds.map toString)
    let point := if fraction.isEmpty then "" else "."
    utf8 ((if negative then "-" else "") ++ digits whole ++ point ++ digits fraction ++ "e" ++
      toString exponent)

mutual

/-- A value on one line. -/
def compact : Json → Bytes
  | .null => utf8 "null"
  | .bool true => utf8 "true"
  | .bool false => utf8 "false"
  | .number n => numeral n
  | .string s => quoted s
  | .array [] => utf8 "[]"
  | .array (x :: xs) => 0x5b :: (compact x ++ compactItems xs)
  | .object [] => utf8 "\x7b\x7d"
  | .object ((k, v) :: ms) => 0x7b :: (quoted k ++ 0x3a :: (compact v ++ compactMembers ms))

/-- The items after the first, and the end of the array. -/
def compactItems : List Json → Bytes
  | [] => [0x5d]
  | x :: xs => 0x2c :: (compact x ++ compactItems xs)

/-- The members after the first, and the end of the object. -/
def compactMembers : List (Bytes × Json) → Bytes
  | [] => [0x7d]
  | (k, v) :: ms => 0x2c :: (quoted k ++ 0x3a :: (compact v ++ compactMembers ms))

end

/-- The start of a line at some level of indentation. -/
def newline (level : Nat) : Bytes := 0x0a :: List.replicate (2 * level) 0x20

mutual

/-- A value over several lines, whose first line stands at some level of indentation. -/
def pretty (level : Nat) : Json → Bytes
  | .null => utf8 "null"
  | .bool true => utf8 "true"
  | .bool false => utf8 "false"
  | .number n => numeral n
  | .string s => quoted s
  | .array [] => utf8 "[]"
  | .array (x :: xs) =>
    0x5b :: (newline (level + 1) ++ (pretty (level + 1) x ++ prettyItems level xs))
  | .object [] => utf8 "\x7b\x7d"
  | .object ((k, v) :: ms) =>
    0x7b :: (newline (level + 1) ++ (quoted k ++ (utf8 ": " ++
      (pretty (level + 1) v ++ prettyMembers level ms))))

/-- The items after the first, and the end of the array. -/
def prettyItems (level : Nat) : List Json → Bytes
  | [] => newline level ++ [0x5d]
  | x :: xs => 0x2c :: (newline (level + 1) ++ (pretty (level + 1) x ++ prettyItems level xs))

/-- The members after the first, and the end of the object. -/
def prettyMembers (level : Nat) : List (Bytes × Json) → Bytes
  | [] => newline level ++ [0x7d]
  | (k, v) :: ms =>
    0x2c :: (newline (level + 1) ++ (quoted k ++ (utf8 ": " ++
      (pretty (level + 1) v ++ prettyMembers level ms))))

end

end DBusTypes.Json
