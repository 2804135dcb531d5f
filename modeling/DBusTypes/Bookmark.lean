import DBusTypes.TypeReader

/-!
# A place in a checked text

A bookmark is moved through a text type by type. The text has been checked before, so it is read
without limits; should there be a fault all the same, the bookmark is at the end.

* `Bookmark.advance` — the next type, as a range of the text
* `Bookmark.remaining_lt_of_advance` — every type that is given leaves less to give
-/

namespace DBusTypes

/-- A type as a range of a text, with the code it starts with. -/
structure Extent where
  start : Nat
  stop : Nat
  code : Code
  deriving DecidableEq, Repr

/-- A place between two types of a text. Once it is at the end it stays there. -/
structure Bookmark where
  reader : TypeReader
  offset : Nat
  done : Bool
  deriving DecidableEq, Repr

namespace Bookmark

/-- The place in front of the first type. -/
def new (scope : Scope) : Bookmark := ⟨.unbounded scope, 0, false⟩

/-- A place with no type behind it. -/
def atEnd : Bookmark := ⟨.unbounded .sequence, 0, true⟩

/-- The next type of `text`, and the place behind it. -/
def advance (text : Bytes) (m : Bookmark) : Option Extent × Bookmark :=
  if m.done then (none, m)
  else
    match m.reader.readAt text m.offset with
    | (r, .ok (some stop)) =>
      match text[m.offset]?.bind Code.ofByte? with
      | some code => (some ⟨m.offset, stop, code⟩, ⟨r, stop, text.length ≤ stop⟩)
      | none => (none, { m with reader := r })
    | (r, _) => (none, ⟨r, m.offset, true⟩)

def remaining (text : Bytes) (m : Bookmark) : Nat :=
  if m.done then 0 else text.length - m.offset + 1

/-- What has been done when a type is given. -/
theorem advance_some {text : Bytes} {m m' : Bookmark} {e : Extent}
    (h : m.advance text = (some e, m')) :
    m.done = false ∧ e.start = m.offset ∧ m'.offset = e.stop ∧ e.start < e.stop ∧
      e.stop ≤ text.length ∧ (m'.done = true ↔ text.length ≤ e.stop) := by
  unfold advance at h
  split at h
  · simp at h
  · next hm =>
    split at h
    · next r stop hr =>
      have hs := TypeReader.readAt_some (congrArg Prod.snd hr)
      split at h
      · simp only [Prod.mk.injEq, Option.some.injEq] at h
        obtain ⟨rfl, rfl⟩ := h
        exact ⟨by simpa using hm, rfl, rfl, hs.1, hs.2, by simp⟩
      · simp at h
    · simp at h

/-- Every type that is given leaves less to give. -/
theorem remaining_lt_of_advance {text : Bytes} {m m' : Bookmark} {e : Extent}
    (h : m.advance text = (some e, m')) : m'.remaining text < m.remaining text := by
  obtain ⟨h1, h2, h3, h4, h5, h6⟩ := advance_some h
  unfold remaining
  rw [h1]
  split
  · simp
  · simp only [Bool.false_eq_true, if_false]
    omega

end Bookmark

end DBusTypes
