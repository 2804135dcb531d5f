import DBusTypes.Json.Basic

/-!
# Reading JSON

`Json.parse` reads one value, with blanks around and inside it. Escaped characters of a string are
read as their UTF-8 bytes, and all other bytes as they are.

## Termination

Strings and numbers are read by recursion on the text. Values are nested in each other, and every
step into a value, an item or a member is taken with one less of `fuel`, of which `parse` gives more
than any text of that length needs.
-/

namespace DBusTypes.Json

/-! ## Words and numbers -/

def skipBlank (b : Bytes) : Bytes :=
  b.dropWhile fun c => c == 0x20 || c == 0x09 || c == 0x0a || c == 0x0d

/-- What follows a word that has to come first. -/
def expect (word : String) (b : Bytes) : Option Bytes :=
  if (utf8 word).isPrefixOf b then some (b.drop (utf8 word).length) else none

def isDigit (b : UInt8) : Bool := 0x30 ≤ b && b ≤ 0x39

/-- The values of some decimal digits. -/
def digitValues (b : Bytes) : List Nat := b.map fun d => d.toNat - 0x30

/-- The number that some decimal digits are written for. -/
def ofDigits (b : Bytes) : Nat := (digitValues b).foldl (fun n d => 10 * n + d) 0

/-- The exponent of a number, if there is one. -/
def exponent (b : Bytes) : Option (Option Int × Bytes) :=
  match b with
  | e :: rest =>
    if e = 0x65 ∨ e = 0x45 then
      let (negative, rest) := match rest with
        | s :: r => if s = 0x2d then (true, r) else if s = 0x2b then (false, r) else (false, rest)
        | [] => (false, [])
      let digits := rest.takeWhile isDigit
      if digits.isEmpty then none
      else
        let n : Int := ofDigits digits
        some (some (if negative then -n else n), rest.dropWhile isDigit)
    else some (none, b)
  | [] => some (none, [])

/-- The digits of a number after its point, if there is one. -/
def fraction (b : Bytes) : Option (Option Bytes × Bytes) :=
  match b with
  | p :: rest =>
    if p = 0x2e then
      let digits := rest.takeWhile isDigit
      if digits.isEmpty then none else some (some digits, rest.dropWhile isDigit)
    else some (none, b)
  | [] => some (none, [])

def unsigned (negative : Bool) (b : Bytes) : Option (JsonNumber × Bytes) := do
  let digits := b.takeWhile isDigit
  if digits.isEmpty || (digits.head? == some 0x30 && digits.length != 1) then none
  let (frac, rest) ← fraction (b.dropWhile isDigit)
  let (exp, rest) ← exponent rest
  match frac, exp with
  | none, none =>
    let n := ofDigits digits
    -- a negative zero keeps its sign, which no whole number has
    if negative && n == 0 then return (.decimal true [0] [] 0, rest)
    return (.whole (if negative then -n else n), rest)
  | _, _ =>
    return (.decimal negative (digitValues digits) (digitValues (frac.getD [])) (exp.getD 0), rest)

def signed (b : Bytes) : Option (JsonNumber × Bytes) :=
  match b with
  | c :: rest => if c = 0x2d then unsigned true rest else unsigned false b
  | [] => none

/-! ## Strings -/

def hexValue (b : UInt8) : Option Nat :=
  if 0x30 ≤ b ∧ b ≤ 0x39 then some (b.toNat - 0x30)
  else if 0x61 ≤ b ∧ b ≤ 0x66 then some (b.toNat - 0x61 + 10)
  else if 0x41 ≤ b ∧ b ≤ 0x46 then some (b.toNat - 0x41 + 10)
  else none

/-- The value of four hexadecimal digits. -/
def hexQuad (a b c d : UInt8) : Option Nat := do
  return (((← hexValue a) * 16 + (← hexValue b)) * 16 + (← hexValue c)) * 16 + (← hexValue d)

/-- The byte that a one-letter escape stands for. -/
def unescape (b : UInt8) : Option UInt8 :=
  if b = 0x22 ∨ b = 0x5c ∨ b = 0x2f then some b
  else if b = 0x62 then some 0x08
  else if b = 0x66 then some 0x0c
  else if b = 0x6e then some 0x0a
  else if b = 0x72 then some 0x0d
  else if b = 0x74 then some 0x09
  else none

def codePoint (n : Nat) : Bytes := String.utf8EncodeChar (Char.ofNat n)

/-- The rest of a string after `acc`, which holds its bytes so far in reverse. A code point beyond
0xffff is written as two escapes, of which neither may stand alone. -/
def stringTail (acc : Bytes) : Bytes → Option (Bytes × Bytes)
  | [] => none
  | c :: rest =>
    if c = 0x22 then some (acc.reverse, rest)
    else if c = 0x5c then
      match rest with
      | [] => none
      | e :: rest =>
        if e = 0x75 then
          match rest with
          | h1 :: h2 :: h3 :: h4 :: rest =>
            match hexQuad h1 h2 h3 h4 with
            | none => none
            | some n =>
              if 0xd800 ≤ n ∧ n < 0xdc00 then
                match rest with
                | s :: u :: l1 :: l2 :: l3 :: l4 :: rest =>
                  match hexQuad l1 l2 l3 l4 with
                  | none => none
                  | some m =>
                    if s = 0x5c ∧ u = 0x75 ∧ 0xdc00 ≤ m ∧ m < 0xe000 then
                      let point := 0x10000 + (n - 0xd800) * 0x400 + (m - 0xdc00)
                      stringTail ((codePoint point).reverse ++ acc) rest
                    else none
                | _ => none
              else if 0xdc00 ≤ n ∧ n < 0xe000 then none
              else stringTail ((codePoint n).reverse ++ acc) rest
          | _ => none
        else
          match unescape e with
          | none => none
          | some b => stringTail (b :: acc) rest
    else if c < 0x20 then none
    else stringTail (c :: acc) rest

/-! ## Values -/

mutual

/-- A value, with no blanks in front. -/
def value : Nat → Bytes → Option (Json × Bytes)
  | 0, _ => none
  | _ + 1, [] => none
  | fuel + 1, c :: rest =>
    if c = 0x22 then (stringTail [] rest).map fun r => (.string r.1, r.2)
    else if c = 0x5b then
      match skipBlank rest with
      | [] => none
      | c' :: rest' =>
        if c' = 0x5d then some (.array [], rest')
        else (items fuel (c' :: rest')).map fun r => (.array r.1, r.2)
    else if c = 0x7b then
      match skipBlank rest with
      | [] => none
      | c' :: rest' =>
        if c' = 0x7d then some (.object [], rest')
        else (members fuel (c' :: rest')).map fun r => (.object r.1, r.2)
    else if c = 0x6e then (expect "null" (c :: rest)).map fun r => (.null, r)
    else if c = 0x74 then (expect "true" (c :: rest)).map fun r => (.bool true, r)
    else if c = 0x66 then (expect "false" (c :: rest)).map fun r => (.bool false, r)
    else (signed (c :: rest)).map fun r => (.number r.1, r.2)

/-- One or more items, and the end of the array. -/
def items : Nat → Bytes → Option (List Json × Bytes)
  | 0, _ => none
  | fuel + 1, b =>
    match value fuel b with
    | none => none
    | some (x, rest) =>
      match skipBlank rest with
      | [] => none
      | c :: rest =>
        if c = 0x5d then some ([x], rest)
        else if c = 0x2c then (items fuel (skipBlank rest)).map fun r => (x :: r.1, r.2)
        else none

/-- One or more members, and the end of the object. -/
def members : Nat → Bytes → Option (List (Bytes × Json) × Bytes)
  | 0, _ => none
  | fuel + 1, b =>
    match b with
    | [] => none
    | q :: rest =>
      if q = 0x22 then
        match stringTail [] rest with
        | none => none
        | some (k, rest) =>
          match skipBlank rest with
          | [] => none
          | colon :: rest =>
            if colon = 0x3a then
              match value fuel (skipBlank rest) with
              | none => none
              | some (v, rest) =>
                match skipBlank rest with
                | [] => none
                | c :: rest =>
                  if c = 0x7d then some ([(k, v)], rest)
                  else if c = 0x2c then
                    (members fuel (skipBlank rest)).map fun r => ((k, v) :: r.1, r.2)
                  else none
            else none
      else none

end

/-- The value that a text is written for. -/
def parse (b : Bytes) : Option Json :=
  match value (2 * b.length + 2) (skipBlank b) with
  | some (v, rest) => if (skipBlank rest).isEmpty then some v else none
  | none => none

end DBusTypes.Json
