import DBusTypes.Bytes
import DBusTypes.Text.Blank

/-!
# Texts, one to a line

A line ends at a line feed; the last one may do without. White space around a text is dropped, and
with it a carriage return in front of the line feed. Blank lines hold no text.

* `splitLines` — the lines of some bytes
* `readTexts` — their texts, or the number of the first line that is not UTF-8
-/

namespace DBusTypes

/-- The lines of some bytes after those in `line`, which holds the start of a line in reverse. -/
def splitLinesFrom (line : Bytes) : Bytes → List Bytes
  | [] => if line.isEmpty then [] else [line.reverse]
  | b :: rest =>
    if b = 0x0a then line.reverse :: splitLinesFrom [] rest else splitLinesFrom (b :: line) rest

/-- The lines of some bytes. A line feed at the very end starts no other line. -/
def splitLines (b : Bytes) : List Bytes := splitLinesFrom [] b

/-- The texts of lines that are numbered from `n` on. -/
def readTextsFrom (n : Nat) : List Bytes → Except Nat (List String)
  | [] => .ok []
  | line :: lines =>
    match line.text? with
    | none => .error n
    | some s => do
      let rest ← readTextsFrom (n + 1) lines
      return if (trim s).isEmpty then rest else trim s :: rest

/-- The texts of all lines that are not blank, or else the number of the first line that is not
UTF-8. Lines are counted from one, and blank ones too. -/
def readTexts (b : Bytes) : Except Nat (List String) := readTextsFrom 1 (splitLines b)

end DBusTypes
