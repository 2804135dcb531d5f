/-!
# Shortest decimals

A finite floating-point number is shown by the fewest decimal digits that still read back as it. Of
two such decimals the nearer one is taken, and of two that are equally near the even one.

## How the digits are laid out

A number whose first digit stands for a power of ten from `10 ^ -5` to `10 ^ 15` is written with all
its places and a point, as `0.00001` or `100.0`. A larger or smaller one has an exponent with a
sign, as `1e+16` or `2.5e-10`.

## How the digits are found

A double is `m * 2 ^ q` for natural `m`. The reals that are rounded to it form an interval around
it, whose ends belong to it just if `m` is even. For one digit, two digits and so on, the two
decimals around the number are tested against that interval in exact arithmetic. Seventeen digits
are always enough.
-/

namespace DBusTypes.Shortest

/-- A positive double, as `m * 2 ^ q`. -/
structure Binary where
  m : Nat
  q : Int
  /-- Whether the next double below is only half as far away as the next above. -/
  nearBelow : Bool

/-- The decimal `digits * 10 ^ exponent`. -/
structure Decimal where
  digits : Nat
  exponent : Int

/-- The size of the double with these bits, if it is finite and not zero. -/
def Binary.ofBits? (bits : UInt64) : Option Binary :=
  let significand : Nat := bits.toNat % Nat.pow 2 52
  let biased : Nat := bits.toNat / Nat.pow 2 52 % Nat.pow 2 11
  if biased = 2047 then none
  else if biased = 0 then if significand = 0 then none else some ⟨significand, -1074, false⟩
  else some ⟨Nat.pow 2 52 + significand, (biased : Int) - 1075, significand = 0 ∧ biased ≠ 1⟩

/-- Two factors whose quotient is `base ^ e`. -/
def powers (base : Nat) (e : Int) : Nat × Nat :=
  (base.pow e.toNat, base.pow (-e).toNat)

/-- The decimal of a given exponent that a double is shown by, if one reads back as it. The number
is taken in quarters of its last binary place. -/
def onGrid? (x : Binary) (exponent : Int) : Option Decimal :=
  let (twos, half) := powers 2 (x.q - 2)
  let (tens, tenth) := powers 10 exponent
  -- `n` quarters and the decimal `d`, both as whole numbers of one small unit
  let quarters (n : Nat) : Nat := n * twos * tenth
  let decimals (d : Nat) : Nat := d * tens * half
  let exact := quarters (4 * x.m)
  let low := quarters (4 * x.m - (if x.nearBelow then 1 else 2))
  let high := quarters (4 * x.m + 2)
  let readsBack (d : Nat) : Bool :=
    if x.m % 2 = 0 then low ≤ decimals d && decimals d ≤ high
    else low < decimals d && decimals d < high
  let below := exact / decimals 1
  let above := below + 1
  let gapBelow := exact - decimals below
  let gapAbove := decimals above - exact
  match readsBack below, readsBack above with
  | true, true =>
    let takeAbove := gapAbove < gapBelow ∨ gapAbove = gapBelow ∧ above % 2 = 0
    some ⟨if takeAbove then above else below, exponent⟩
  | true, false => some ⟨below, exponent⟩
  | false, true => some ⟨above, exponent⟩
  | false, false => none

/-- The exponent of the first decimal digit of a double. -/
def magnitude (x : Binary) : Int :=
  let (twos, half) := powers 2 x.q
  if half ≤ x.m * twos then (toString (x.m * twos / half)).length - 1
  else -(((List.range 330).find? fun j => half ≤ x.m * twos * Nat.pow 10 j).getD 0)

/-- The shortest decimal that reads back as a double. A number just below a power of ten may be
shown by that power, which has one digit and not a zero more. -/
def decimal (x : Binary) : Decimal :=
  match (List.range 17).findSome? fun (n : Nat) => onGrid? x (magnitude x - n) with
  | none => ⟨0, 0⟩
  | some d => if d.digits % 10 = 0 then ⟨d.digits / 10, d.exponent + 1⟩ else d

/-- A decimal without an exponent, with at least one digit on either side of the point. -/
def positional (d : Decimal) : String :=
  let digits := (toString d.digits).toList
  if 0 ≤ d.exponent then String.ofList (digits ++ List.replicate d.exponent.toNat '0') ++ ".0"
  else
    let places := (-d.exponent).toNat
    let padded := List.replicate (places + 1 - digits.length) '0' ++ digits
    let whole := padded.length - places
    String.ofList (padded.take whole) ++ "." ++ String.ofList (padded.drop whole)

/-- The power of ten that the first digit of a decimal stands for. -/
def leading (d : Decimal) : Int := (toString d.digits).length - 1 + d.exponent

/-- A decimal with an exponent, and with a point only if it has more than one digit. -/
def scientific (d : Decimal) : String :=
  let digits := (toString d.digits).toList
  let rest := if digits.length ≤ 1 then [] else '.' :: digits.drop 1
  let sign := if leading d < 0 then "-" else "+"
  String.ofList (digits.take 1 ++ rest) ++ "e" ++ sign ++ toString (leading d).natAbs

/-- A decimal as it is laid out. -/
def layout (d : Decimal) : String :=
  if -5 ≤ leading d ∧ leading d ≤ 15 then positional d else scientific d

/-- A floating-point number in words. -/
def text (x : Float) : String :=
  let bits := x.toBits
  let sign := if bits.toNat / Nat.pow 2 63 = 1 then "-" else ""
  match Binary.ofBits? bits with
  | some b => sign ++ layout (decimal b)
  | none => if x.isNaN then "NaN" else if x.isInf then sign ++ "inf" else sign ++ "0.0"

end DBusTypes.Shortest
