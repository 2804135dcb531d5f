import DBusTypes.Json.Basic

/-!
# JSON numbers as doubles

A number is read fast rather than to the last bit: what it is read as need not be the double nearest
to it.

## How a number is read

* its digits are taken, from the left, for as long as they make a number of 64 bits; a digit before
  the point that is not taken still counts as a place, and one after the point counts for nothing
* that number is rounded to a double, and so is the power of ten that belongs to it
* their product or quotient is rounded once more

## Main definitions

* `JsonNumber.toFloat` — the double that a number is read as
* `JsonNumber.takeDigits` — the digits that fit in 64 bits
* `JsonNumber.scale` — a number times a power of ten
-/

namespace DBusTypes.JsonNumber

/-- Puts digits behind a number for as long as it fits in 64 bits. Gives the number and how many
digits were taken. -/
def takeDigits (n : Nat) : List Nat → Nat × Nat
  | [] => (n, 0)
  | d :: ds =>
    if 10 * n + d < UInt64.size then
      let r := takeDigits (10 * n + d) ds
      (r.1, r.2 + 1)
    else (n, 0)

/-- A power of ten. It is infinite from `10 ^ 309` on. -/
def power (n : Nat) : Float := Float.ofScientific 1 false (min n 309)

/-- A number times a power of ten. Division by a power that is no double is done in two steps, and
leaves nothing of a number of 64 bits if two do not suffice. -/
def scale (n : Nat) (exponent : Int) : Float :=
  let x := Float.ofScientific n false 0
  if n = 0 then x
  else if 0 ≤ exponent then x * power exponent.toNat
  else
    let places := (-exponent).toNat
    if places ≤ 308 then x / power places
    else if places ≤ 616 then x / power 308 / power (places - 308)
    else 0

/-- A number without its sign, from the digits before and after the point. -/
def ofParts (whole fraction : List Nat) (exponent : Int) : Float :=
  let w := takeDigits 0 whole
  let f := takeDigits w.1 fraction
  scale f.1 ((whole.length - w.2 : Nat) - f.2 + exponent)

def digitsOf (n : Nat) : List Nat := (Nat.toDigits 10 n).map fun c => c.toNat - '0'.toNat

/-- The double that a number is read as. -/
def toFloat : JsonNumber → Float
  | .whole n =>
    let x := ofParts (digitsOf n.natAbs) [] 0
    if n < 0 then -x else x
  | .decimal negative before after exponent =>
    let x := ofParts before after exponent
    if negative then -x else x

end DBusTypes.JsonNumber
