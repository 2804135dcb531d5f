import DBusTypes.Excerpt

/-!
# The types of a text, as parts of it

A *portion* is a single complete type that is kept as a range of the text it is a part of, so that
all types of a text share that text. `Portions` goes through the types of a checked text and gives
each as a portion.

* `Portions.next`, `Portions.toList` — the types of a text
* `Portion.excerpt` — the same type, cut out
-/

namespace DBusTypes

/-- A single complete type, as a range of a text. -/
structure Portion where
  source : Bytes
  start : Nat
  stop : Nat
  code : Code
  /-- Whether the type ends where the text ends. -/
  last : Bool
  deriving DecidableEq, Repr

/-- The types of a text from some place on. -/
structure Portions where
  source : Bytes
  place : Bookmark
  deriving DecidableEq, Repr

namespace Portion

def text (p : Portion) : Bytes := (p.source.slice? p.start p.stop).getD []

/-- The same type, cut out of the text. -/
def excerpt (p : Portion) : Excerpt := ⟨p.text, p.start, p.code, p.last⟩

def children (p : Portion) : Excerpts := .inside p.text p.code

end Portion

namespace Portions

/-- All types of a text that has been checked. An empty text is at its end from the start. -/
def ofChecked (source : Bytes) : Portions :=
  ⟨source, if source.isEmpty then .atEnd else .new .sequence⟩

def next (it : Portions) : Option Portion × Portions :=
  match it.place.advance it.source with
  | (some e, place) =>
    (some ⟨it.source, e.start, e.stop, e.code, place.done⟩, { it with place := place })
  | (none, place) => (none, { it with place := place })

def remaining (it : Portions) : Nat := it.place.remaining it.source

theorem remaining_lt_of_next {it it' : Portions} {p : Portion} (h : it.next = (some p, it')) :
    it'.remaining < it.remaining := by
  unfold next at h
  split at h
  · next e place he =>
    simp only [Prod.mk.injEq, Option.some.injEq] at h
    obtain ⟨rfl, rfl⟩ := h
    exact Bookmark.remaining_lt_of_advance he
  · simp at h

/-- All types that are left, and what is left then. -/
def drain (it : Portions) : List Portion × Portions :=
  match _h : it.next with
  | (some p, it') =>
    let r := it'.drain
    (p :: r.1, r.2)
  | (none, it') => ([], it')
termination_by it.remaining
decreasing_by exact remaining_lt_of_next _h

def toList (it : Portions) : List Portion := it.drain.1

end Portions

end DBusTypes
