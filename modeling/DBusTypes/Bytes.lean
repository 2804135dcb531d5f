/-!
# Byte strings

Signatures, file contents and output are strings of bytes. Offsets and lengths count bytes.

* `utf8` — the bytes of a text
* `Bytes.text?` — the text of some bytes, if they are well-formed UTF-8
* `Bytes.slice?` — a part of a text, cut between two characters only
-/

namespace DBusTypes

/-- A string of bytes. -/
abbrev Bytes := List UInt8

/-- The UTF-8 form of a text. -/
def utf8 (s : String) : Bytes := s.toByteArray.data.toList

theorem utf8_append (s t : String) : utf8 (s ++ t) = utf8 s ++ utf8 t := by
  rw [utf8, String.toByteArray_append, ByteArray.data_append, Array.toList_append]
  rfl

/-- The bytes of a text are those of its characters. -/
theorem utf8_ofList (cs : List Char) :
    utf8 (String.ofList cs) = cs.flatMap String.utf8EncodeChar := by
  rw [utf8, String.toByteArray_ofList]
  simp [List.utf8Encode]

/-- Texts with the same bytes are the same. -/
theorem utf8_inj {s t : String} : utf8 s = utf8 t ↔ s = t := by
  constructor
  · intro h
    exact String.toByteArray_inj.mp (ByteArray.ext (Array.toList_inj.mp h))
  · rintro rfl
    rfl

namespace Bytes

/-- The text that some bytes are the UTF-8 form of. -/
def text? (b : Bytes) : Option String := String.fromUTF8? ⟨b.toArray⟩

/-- Whether a cut in front of these bytes falls between two characters: it does at the end of the
text, and wherever the next byte does not continue a character. -/
def startsCharacter : Bytes → Bool
  | [] => true
  | b :: _ => b &&& 0xC0 != 0x80

/-- The part of a text from `start` up to `stop`. There is none if the range does not lie in the
text, or if an end of it would cut a character in two. -/
def slice? (b : Bytes) (start stop : Nat) : Option Bytes :=
  if start ≤ stop ∧ stop ≤ b.length ∧ startsCharacter (b.drop start) ∧ startsCharacter (b.drop stop)
  then some ((b.drop start).take (stop - start))
  else none

/-- A slice has as many bytes as its range. -/
theorem length_of_slice? {b c : Bytes} {start stop : Nat} (h : b.slice? start stop = some c) :
    c.length = stop - start ∧ start ≤ stop ∧ stop ≤ b.length := by
  unfold slice? at h
  split at h
  · next hr =>
    obtain rfl := Option.some.inj h
    simp only [List.length_take, List.length_drop]
    omega
  · exact absurd h (by simp)

end Bytes

end DBusTypes
