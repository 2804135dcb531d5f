import DBusTypes.Proofs.Tiling

/-!
# The inside of a type

What stands between the ends of a type is the text of its parts again, so it can be gone through
without another check: the element of an array, the fields of a struct, the key and the value of a
dict-entry.

* `Element.parts`, `Element.render_eq_parts` — the parts of an element, and its text by them
* `Excerpts.inside_arrayOf`, `Excerpts.inside_struct`, `Excerpts.inside_entry` — the text inside
* `Element.between_parts` — **inside an element are its parts**, all of them to come
* `Excerpt.toList_children` — **the children of an item are the parts of its element**
-/

namespace DBusTypes

/-! ## The parts of an element -/

/-- The bracket that ends the text of a type, if there is one. -/
def Code.closing : Code → Bytes
  | .struct => [structEnd]
  | .dictEntry => [entryEnd]
  | .basic _ | .variant | .array => []

/-- What the inside of a type is read as. -/
def Code.inner : Code → Scope
  | .array => .element
  | .basic _ | .variant | .struct | .dictEntry => .sequence

/-- The element of an array is expected in an array only. -/
theorem Code.eq_array_of_inner {c : Code} (h : c.inner = .element) : c = .array := by
  cases c with
  | array => rfl
  | basic _ | variant | struct | dictEntry => simp [inner] at h

namespace Element

/-- The elements one level down: the element of an array, the fields of a struct, the key and the
value of a dict-entry. -/
def parts : Element → List Element
  | type (.basic _) | type .variant => []
  | type (.array t) => [type t]
  | type (.dict k v) => [entry k v]
  | type (.struct t ts) => (t :: ts).map type
  | entry k v => [type (.basic k), type v]

theorem parts_arrayOf (e : Element) : (type e.arrayOf).parts = [e] := by
  cases e <;> rfl

/-- **An element is its code, its parts one after the other, and its bracket.** -/
theorem render_eq_parts (e : Element) :
    e.render = e.code.byte :: (renderAll e.parts ++ e.code.closing) := by
  cases e with
  | type t =>
    cases t with
    | basic k | variant => rfl
    | array t => simp [render, Ty.render, parts, renderAll, code, Ty.code, Code.closing]
    | dict k v => simp [render, Ty.render, parts, renderAll, code, Ty.code, Code.closing]
    | struct t ts =>
      rw [render, Ty.render_struct, parts, renderAll_map_type]
      rfl
  | entry k v => simp [render, Ty.render, parts, renderAll, code, Code.closing]

end Element

/-! ## Cutting off the ends -/

namespace Bytes

/-- What stands behind the first byte. -/
theorem slice?_tail {b : UInt8} {v : Bytes} (h : ∀ c ∈ b :: v, c < 128) :
    slice? (b :: v) 1 (b :: v).length = some v := by
  have hs := slice?_append (u := [b]) (v := v) (w := []) (by simpa using h)
  simpa [Nat.add_comm] using hs

/-- What stands between the first byte and the last. -/
theorem slice?_interior {b z : UInt8} {v : Bytes} (h : ∀ c ∈ b :: (v ++ [z]), c < 128) :
    slice? (b :: (v ++ [z])) 1 ((b :: (v ++ [z])).length - 1) = some v := by
  have hs := slice?_append (u := [b]) (v := v) (w := [z]) (by simpa using h)
  simpa [Nat.add_comm] using hs

end Bytes

/-! ## The inside, by the form of the type -/

namespace Excerpts

theorem inside_arrayOf (e : Element) :
    inside (Element.type e.arrayOf).render .array = ofChecked .element e.render := by
  have hplain := (Element.type e.arrayOf).lt_of_mem_render
  rw [Element.render, Element.render_arrayOf] at hplain ⊢
  rw [inside, Bytes.slice?_tail hplain]
  rfl

theorem inside_struct (t : Ty) (ts : List Ty) :
    inside (Element.type (.struct t ts)).render .struct =
      ofChecked .sequence (Ty.renderAll (t :: ts)) := by
  have hplain := (Element.type (.struct t ts)).lt_of_mem_render
  rw [Element.render, Ty.render_struct] at hplain ⊢
  rw [inside, Bytes.slice?_interior hplain]
  rfl

theorem inside_entry (k : Basic) (v : Ty) :
    inside (Element.entry k v).render .dictEntry =
      ofChecked .sequence (Ty.renderAll [.basic k, v]) := by
  have htext : (Element.entry k v).render =
      Code.dictEntry.byte :: (Ty.renderAll [.basic k, v] ++ [entryEnd]) := by
    simp [Element.render, Ty.renderAll, Ty.render]
  have hplain := (Element.entry k v).lt_of_mem_render
  rw [htext] at hplain ⊢
  rw [inside, Bytes.slice?_interior hplain]
  rfl

end Excerpts

/-! ## Places inside -/

/-- In front of types that are one after the other. -/
theorem Bookmark.between_types {ts : List Ty} (h : Ty.Fit .top ts) :
    (new .sequence).Between (Ty.renderAll ts) .sequence [] (ts.map .type) :=
  between_new (Element.renderAll_map_type ts).symm (Element.allowed_of_fit h) (by simp)

/-- In front of an element that is alone in its array. -/
theorem Bookmark.between_element {e : Element} (h : e.Allowed .top .element) :
    (new .element).Between e.render .element [] [e] := by
  refine between_new (by simp [Element.renderAll]) ?_ (by simp)
  intro e' he
  obtain rfl := List.mem_singleton.mp he
  exact h

/-- At the end of a text without elements. -/
theorem Bookmark.between_atEnd : atEnd.Between [] .sequence [] [] :=
  ⟨rfl, by simp, by simp, rfl, rfl, rfl, fun _ => rfl⟩

namespace Element

/-- The element of an array may stand where elements are expected. -/
theorem allowed_of_arrayOf {limit : Depth} {scope : Scope} {e : Element}
    (h : (type e.arrayOf).Allowed limit scope) : e.Allowed limit .element := by
  obtain ⟨-, hc, hd⟩ := h
  rw [containers, containers_arrayOf] at hc
  rw [entries, entries_arrayOf] at hd
  exact ⟨fun _ => rfl, by omega, hd⟩

/-- What is allowed anywhere is allowed as the element of an array. -/
theorem Allowed.element {limit : Depth} {scope : Scope} {e : Element} (h : e.Allowed limit scope) :
    e.Allowed limit .element := ⟨fun _ => rfl, h.2⟩

/-- **Inside an element are its parts**, all of them to come. -/
theorem between_parts {e : Element} (h : e.Allowed .top .element) :
    (Excerpts.inside e.render e.code).place.Between
      (Excerpts.inside e.render e.code).text e.code.inner [] e.parts := by
  have harray : ∀ e : Element, (type e.arrayOf).Allowed .top .element →
      (Excerpts.inside (type e.arrayOf).render .array).place.Between
        (Excerpts.inside (type e.arrayOf).render .array).text .element [] [e] := by
    intro e he
    rw [Excerpts.inside_arrayOf]
    exact Bookmark.between_element (allowed_of_arrayOf he)
  obtain ⟨-, hc, hd⟩ := id h
  cases e with
  | type t =>
    cases t with
    | basic k | variant => exact Bookmark.between_atEnd
    | array t => exact harray (type t) h
    | dict k v => exact harray (entry k v) h
    | struct t ts =>
      rw [containers, Ty.containers_struct] at hc
      rw [entries, Ty.entries_struct] at hd
      show (Excerpts.inside _ .struct).place.Between (Excerpts.inside _ .struct).text _ _ _
      rw [Excerpts.inside_struct]
      exact Bookmark.between_types ⟨by omega, hd⟩
  | entry k v =>
    rw [containers] at hc
    rw [entries] at hd
    show (Excerpts.inside _ .dictEntry).place.Between (Excerpts.inside _ .dictEntry).text _ _
      ([Ty.basic k, v].map type)
    rw [Excerpts.inside_entry]
    refine Bookmark.between_types ⟨?_, ?_⟩
    · simpa [Ty.containersAll, Ty.containers] using hc
    · simp [Ty.entriesAll, Ty.entries]
      omega

/-- The parts of an element may stand where its inside is read. -/
theorem allowed_of_mem_parts {e p : Element} (h : e.Allowed .top .element) (hp : p ∈ e.parts) :
    p.Allowed .top e.code.inner := (between_parts h).allowed p hp

end Element

/-- **The children of an item are the parts of its element**, cut out of its inside. -/
theorem Excerpt.toList_children {x : Excerpt} {e : Element} (h : e.Allowed .top .element)
    (ht : x.text = e.render) (hc : x.code = e.code) :
    x.children.toList = Excerpts.cut 0 e.parts := by
  rw [Excerpt.children, ht, hc]
  exact Excerpts.toList_eq (Element.between_parts h)

end DBusTypes
