import DBusTypes.Bookmark
import DBusTypes.Checking

/-!
# The types of a text, cut out

An *excerpt* is a single complete type with its own copy of the text. `Excerpts` goes through the
types of a checked text, left to right, and gives each as an excerpt.

* `Excerpts.next`, `Excerpts.toList` — the types of a text
* `Excerpt.children` — the types one level down
* `Excerpt.length_lt_of_mem_children` — a child is shorter than the type it is a part of
-/

namespace DBusTypes

/-- A single complete type, cut out of a text. -/
structure Excerpt where
  text : Bytes
  /-- Where the type starts in the text it was cut out of. -/
  offset : Nat
  code : Code
  /-- Whether the type ends where that text ends. -/
  last : Bool
  deriving DecidableEq, Repr

/-- The types of a text from some place on. -/
structure Excerpts where
  text : Bytes
  place : Bookmark
  deriving DecidableEq, Repr

namespace Excerpts

/-- All types of a text that has been checked. -/
def ofChecked (scope : Scope) (text : Bytes) : Excerpts := ⟨text, .new scope⟩

def empty : Excerpts := ⟨[], .atEnd⟩

/-- All types of a text, once it is checked. -/
def ofBytes (limits : Limits) (text : Bytes) : Except Rejection Excerpts := do
  check limits text
  return ofChecked .sequence text

/-- The types one level down in a type that has been checked: the element of an array, the fields of
a struct, the key and value of a dict-entry. A basic type and a variant have none. -/
def inside (text : Bytes) (code : Code) : Excerpts :=
  match code with
  | .array => (text.slice? 1 text.length).elim empty (ofChecked .element)
  | .struct | .dictEntry => (text.slice? 1 (text.length - 1)).elim empty (ofChecked .sequence)
  | .basic _ | .variant => empty

/-- The next type, and the types after it. -/
def next (it : Excerpts) : Option Excerpt × Excerpts :=
  match it.place.advance it.text with
  | (some e, place) =>
    ((it.text.slice? e.start e.stop).map fun part => ⟨part, e.start, e.code, place.done⟩,
      { it with place := place })
  | (none, place) => (none, { it with place := place })

def remaining (it : Excerpts) : Nat := it.place.remaining it.text

/-- What has been done when a type is given. -/
theorem next_some {it it' : Excerpts} {x : Excerpt} (h : it.next = (some x, it')) :
    ∃ e, it.place.advance it.text = (some e, it'.place) ∧ it'.text = it.text ∧
      it.text.slice? e.start e.stop = some x.text ∧ x.offset = e.start ∧ x.code = e.code ∧
      x.last = it'.place.done := by
  unfold next at h
  split at h
  · next e place he =>
    simp only [Prod.mk.injEq, Option.map_eq_some_iff] at h
    obtain ⟨⟨part, hp, rfl⟩, rfl⟩ := h
    exact ⟨e, he, rfl, hp, rfl, rfl, rfl⟩
  · simp at h

theorem remaining_lt_of_next {it it' : Excerpts} {x : Excerpt} (h : it.next = (some x, it')) :
    it'.remaining < it.remaining := by
  obtain ⟨e, he, ht, -⟩ := next_some h
  unfold remaining
  rw [ht]
  exact Bookmark.remaining_lt_of_advance he

/-- All types that are left, and what is left then. -/
def drain (it : Excerpts) : List Excerpt × Excerpts :=
  match _h : it.next with
  | (some x, it') =>
    let r := it'.drain
    (x :: r.1, r.2)
  | (none, it') => ([], it')
termination_by it.remaining
decreasing_by exact remaining_lt_of_next _h

def toList (it : Excerpts) : List Excerpt := it.drain.1

theorem toList_empty : empty.toList = [] := by
  rw [toList, drain.eq_def]
  rfl

/-- No type is longer than the text it comes from. -/
theorem length_le_of_mem_toList {it : Excerpts} {x : Excerpt} (h : x ∈ it.toList) :
    x.text.length ≤ it.text.length := by
  unfold toList at h
  fun_induction drain it with
  | case1 it y it' hn r ih =>
    obtain ⟨e, -, ht, hp, -⟩ := next_some hn
    rcases List.mem_cons.mp h with rfl | h
    · have := Bytes.length_of_slice? hp
      omega
    · rw [← ht]
      exact ih h
  | case2 => simp at h

/-- What is inside a type is shorter than the type, where there is anything. -/
theorem length_inside_le (text : Bytes) (code : Code) :
    (inside text code).text.length ≤ text.length - 1 := by
  have key : ∀ (scope : Scope) (start stop : Nat), 1 ≤ start →
      ((text.slice? start stop).elim empty (ofChecked scope)).text.length ≤ text.length - 1 := by
    intro scope start stop hs
    cases h : text.slice? start stop with
    | none => simp [empty]
    | some part =>
      have := Bytes.length_of_slice? h
      simp only [Option.elim_some, ofChecked]
      omega
  cases code with
  | array => exact key _ _ _ (Nat.le_refl 1)
  | struct => exact key _ _ _ (Nat.le_refl 1)
  | dictEntry => exact key _ _ _ (Nat.le_refl 1)
  | basic b => simp [inside, empty]
  | variant => simp [inside, empty]

theorem inside_nil (code : Code) : inside [] code = empty := by
  cases code <;> rfl

end Excerpts

namespace Excerpt

def children (x : Excerpt) : Excerpts := .inside x.text x.code

/-- A child is shorter than the type it is a part of. -/
theorem length_lt_of_mem_children {x y : Excerpt} (h : y ∈ x.children.toList) :
    y.text.length < x.text.length := by
  have h1 := Excerpts.length_le_of_mem_toList h
  have h2 := Excerpts.length_inside_le x.text x.code
  cases hx : x.text with
  | nil =>
    rw [children, hx, Excerpts.inside_nil, Excerpts.toList_empty] at h
    simp at h
  | cons b r =>
    rw [children] at h1
    rw [hx] at h1 h2
    simp only [List.length_cons] at h2 ⊢
    omega

end Excerpt

end DBusTypes
