/-!
# Showing single bytes

A byte that was found where it does not belong is shown in a message so that it can be told from
every other byte: printable ASCII as it is, but for quotes and the backslash, and all else by an
escape.
-/

namespace DBusTypes

/-- A lower-case hexadecimal digit. -/
def hexDigit (n : Nat) : Char := n.digitChar

/-- Two lower-case hexadecimal digits. -/
def hexPair (b : UInt8) : List Char := [hexDigit (b.toNat / 16), hexDigit (b.toNat % 16)]

/-- The characters that show a byte. -/
def escapeByte (b : UInt8) : List Char :=
  if b = 0x09 then ['\\', 't']
  else if b = 0x0d then ['\\', 'r']
  else if b = 0x0a then ['\\', 'n']
  else if b = 0x27 then ['\\', '\'']
  else if b = 0x22 then ['\\', '"']
  else if b = 0x5c then ['\\', '\\']
  else if 0x20 ≤ b ∧ b ≤ 0x7e then [Char.ofUInt8 b]
  else '\\' :: 'x' :: hexPair b

end DBusTypes
