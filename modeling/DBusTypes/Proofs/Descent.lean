import DBusTypes.Proofs.Values

/-!
# Going down into a type

The items of an accepted text are taken apart level by level, and nothing is checked on the way. What
is found is what the grammar has put together: as many children as the container takes, each of the
sort it takes, and all of the text.

* `Excerpt.Top` — the items that a text itself gives
* `Excerpt.Reached` — what is reached from them by going down any number of times
* `Excerpt.Assembled` — an item that is its code, its children and its bracket
* `children_take_apart` — **whatever is reached is assembled from its children**
-/

namespace DBusTypes

namespace Excerpt

/-- The items that an accepted text gives at its top level. -/
inductive Top (limits : Limits) (text : Bytes) : Excerpt → Prop
  /-- Going through the text alone. -/
  | ofBytes {it : Excerpts} {x : Excerpt} (h : Excerpts.ofBytes limits text = .ok it)
      (hx : x ∈ it.toList) : Top limits text x
  /-- Going through its signature, as cut-out texts. -/
  | excerpt {s : Signature} {x : Excerpt} (h : Signature.within limits text = .ok s)
      (hx : x ∈ s.excerpts.toList) : Top limits text x
  /-- Going through its signature, as parts of the text. -/
  | portion {s : Signature} {p : Portion} (h : Signature.within limits text = .ok s)
      (hp : p ∈ s.portions.toList) : Top limits text p.excerpt

/-- The items that are reached from an accepted text by going down any number of times. -/
inductive Reached (limits : Limits) (text : Bytes) : Excerpt → Prop
  | top {x : Excerpt} (h : Top limits text x) : Reached limits text x
  /-- Going down into a part of the text. -/
  | inPortion {s : Signature} {p : Portion} {y : Excerpt}
      (h : Signature.within limits text = .ok s) (hp : p ∈ s.portions.toList)
      (hy : y ∈ p.children.toList) : Reached limits text y
  /-- Going down into a text that was cut out. -/
  | child {x y : Excerpt} (h : Reached limits text x) (hy : y ∈ x.children.toList) :
      Reached limits text y

/-- Whether an item is an element, with the code it starts with. -/
def IsElement (x : Excerpt) : Prop :=
  ∃ e : Element, e.Allowed .top .element ∧ x.text = e.render ∧ x.code = e.code

/-- Whether an item is put together from its children as the grammar puts it together. -/
structure Assembled (x : Excerpt) : Prop where
  basic : ∀ k, x.code = .basic k → x.children.toList = []
  variant : x.code = .variant → x.children.toList = []
  array : x.code = .array → ∃ y, x.children.toList = [y]
  struct : x.code = .struct → x.children.toList ≠ []
  entry : x.code = .dictEntry → ∃ k y z, x.children.toList = [y, z] ∧ y.code = .basic k
  /-- A dict-entry is the child of an array. -/
  entries : ∀ y ∈ x.children.toList, y.code = .dictEntry → x.code = .array
  text : x.text = x.code.byte :: (x.children.toList.flatMap (·.text) ++ x.code.closing)

variable {limits : Limits} {text : Bytes} {x y : Excerpt}

/-! ## Every item is an element -/

/-- What is given at the top level is a type. -/
theorem Top.exists_type (h : Top limits text x) :
    ∃ t : Ty, Ty.Fit .top [t] ∧ x.text = t.render ∧ x.code = t.code := by
  have key : ∀ {it x}, Excerpts.ofBytes limits text = .ok it → x ∈ it.toList →
      ∃ t : Ty, Ty.Fit .top [t] ∧ x.text = t.render ∧ x.code = t.code := by
    intro it x h hx
    obtain ⟨ts, -, -, hb⟩ := Excerpts.between_ofBytes h
    rw [Excerpts.toList_eq hb] at hx
    obtain ⟨e, he, ht, hc⟩ := Excerpts.exists_of_mem_cut hx
    obtain ⟨t, rfl, hfit⟩ := Element.allowed_sequence.mp (hb.allowed e he)
    exact ⟨t, hfit, ht, hc⟩
  cases h with
  | ofBytes h hx => exact key h hx
  | excerpt h hx =>
    obtain ⟨hc, rfl⟩ := Signature.within_ok_iff.mp h
    exact key (Excerpts.ofBytes_ok_iff.mpr ⟨hc, rfl⟩) hx
  | portion h hp =>
    have hs := Portions.sound_portions (Signature.sound_of_within h)
    obtain ⟨t, -, ht, hc, hfit⟩ := (hs.drain.2 _ hp).slice
    exact ⟨t, hfit, ht, hc⟩

theorem Top.isElement (h : Top limits text x) : x.IsElement := by
  obtain ⟨t, hfit, ht, hc⟩ := h.exists_type
  exact ⟨.type t, (Element.allowed_sequence.mpr ⟨t, rfl, hfit⟩).element, ht, hc⟩

/-- The children of an element are elements. -/
theorem IsElement.child (h : x.IsElement) (hy : y ∈ x.children.toList) : y.IsElement := by
  obtain ⟨e, he, ht, hc⟩ := h
  rw [toList_children he ht hc] at hy
  obtain ⟨p, hp, ht', hc'⟩ := Excerpts.exists_of_mem_cut hy
  exact ⟨p, (Element.allowed_of_mem_parts he hp).element, ht', hc'⟩

/-- **Whatever is reached is an element.** -/
theorem Reached.isElement (h : Reached limits text x) : x.IsElement := by
  induction h with
  | top h => exact h.isElement
  | inPortion h hp hy => exact (Top.portion h hp).isElement.child hy
  | child _ hy ih => exact ih.child hy

/-! ## An element and its parts -/

/-- A dict-entry is a part of an array only. -/
theorem code_eq_array_of_entry {e p : Element} (he : e.Allowed .top .element) (hp : p ∈ e.parts)
    (hc : p.code = .dictEntry) : e.code = .array := by
  obtain ⟨k, v, rfl⟩ := Element.code_eq_dictEntry hc
  exact Code.eq_array_of_inner ((Element.allowed_of_mem_parts he hp).1 rfl)

/-- **An item that is an element is assembled from its children.** -/
theorem IsElement.assembled (h : x.IsElement) : x.Assembled := by
  obtain ⟨e, he, ht, hc⟩ := h
  have hlist := toList_children he ht hc
  refine ⟨?_, ?_, ?_, ?_, ?_, ?_, ?_⟩
  · intro k hk
    rw [hlist, Element.code_eq_basic (hc.symm.trans hk)]
    rfl
  · intro hv
    rw [hlist, Element.code_eq_variant (hc.symm.trans hv)]
    rfl
  · intro ha
    obtain ⟨p, rfl⟩ := Element.code_eq_array (hc.symm.trans ha)
    rw [hlist, Element.parts_arrayOf]
    exact ⟨_, rfl⟩
  · intro hs
    obtain ⟨t, ts, rfl⟩ := Element.code_eq_struct (hc.symm.trans hs)
    rw [hlist]
    exact List.cons_ne_nil _ _
  · intro hd
    obtain ⟨k, v, rfl⟩ := Element.code_eq_dictEntry (hc.symm.trans hd)
    rw [hlist]
    exact ⟨k, _, _, rfl, rfl⟩
  · intro y hy hd
    rw [hlist] at hy
    obtain ⟨p, hp, -, hc'⟩ := Excerpts.exists_of_mem_cut hy
    exact hc.trans (code_eq_array_of_entry he hp (hc'.symm.trans hd))
  · have htexts : (Excerpts.cut 0 e.parts).flatMap (·.text) = Element.renderAll e.parts := by
      rw [List.flatMap_def, Excerpts.map_text_cut, ← List.flatMap_def]
      rfl
    rw [hlist, htexts, ht, hc]
    exact e.render_eq_parts

end Excerpt

/-- **Whatever is reached is assembled from its children.** An array has one child, a struct at least
one, a dict-entry a basic key and a value, and no other item has any; the text of an item is its code,
the texts of its children and its bracket; and a dict-entry is met as the child of an array only. -/
theorem children_take_apart (limits : Limits) (text : Bytes) :
    (∀ x, Excerpt.Top limits text x → x.code ≠ .dictEntry) ∧
      ∀ x, Excerpt.Reached limits text x → x.Assembled := by
  constructor
  · intro x hx
    obtain ⟨t, -, -, hc⟩ := hx.exists_type
    rw [hc]
    exact t.code_ne_dictEntry
  · intro x hx
    exact hx.isElement.assembled

/-- In `a{s(iv)}` the dict-entry `{s(iv)}` is reached from the array. -/
theorem children_take_apart_entry :
    Excerpt.Top .standard [0x61, 0x7b, 0x73, 0x28, 0x69, 0x76, 0x29, 0x7d]
        ⟨[0x61, 0x7b, 0x73, 0x28, 0x69, 0x76, 0x29, 0x7d], 0, .array, true⟩ ∧
      Code.array ≠ .dictEntry ∧
      Excerpt.Reached .standard [0x61, 0x7b, 0x73, 0x28, 0x69, 0x76, 0x29, 0x7d]
        ⟨[0x7b, 0x73, 0x28, 0x69, 0x76, 0x29, 0x7d], 0, .dictEntry, true⟩ ∧
      Excerpt.Assembled ⟨[0x7b, 0x73, 0x28, 0x69, 0x76, 0x29, 0x7d], 0, .dictEntry, true⟩ := by
  let t : Ty := .dict .string (.struct (.basic .int32) [.variant])
  have hfit : Ty.Fit .top [t] := by decide
  have hc : check .standard (Ty.renderAll [t]) = .ok () :=
    check_ok_iff_fit.mpr ⟨by decide, _, rfl, by decide⟩
  have htop : Excerpt.Top .standard (Ty.renderAll [t]) ⟨t.render, 0, .array, true⟩ := by
    refine .ofBytes (Excerpts.ofBytes_ok_iff.mpr ⟨hc, rfl⟩) ?_
    rw [Excerpts.toList_eq (Bookmark.between_types hfit)]
    exact List.mem_cons_self
  have hentry : Excerpt.Reached .standard (Ty.renderAll [t])
      ⟨(Element.entry .string (.struct (.basic .int32) [.variant])).render, 0, .dictEntry, true⟩ := by
    refine .child (.top htop) ?_
    have ht : (Element.type t).Allowed .top .element :=
      (Element.allowed_sequence.mpr ⟨t, rfl, hfit⟩).element
    rw [Excerpt.toList_children ht rfl rfl]
    exact List.mem_cons_self
  obtain ⟨hcode, hassembled⟩ := children_take_apart .standard (Ty.renderAll [t])
  exact ⟨htop, hcode _ htop, hentry, hassembled _ hentry⟩

end DBusTypes
