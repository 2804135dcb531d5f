import DBusTypes.Session
import DBusTypes.Proofs.Building
import DBusTypes.Proofs.Inside

/-!
# What values hold

Whatever was made from checked texts, the texts that are kept are the texts of types, and every
iterator stands between two of them. No text is checked again when its types are gone through, or
when the inside of one is: the grammar alone makes it readable.

* `Signature.Sound`, `Portion.Sound`, `Excerpt.Sound` — texts of types
* `Portions.Sound`, `Excerpts.Sound` — iterators that stand between types
* `Excerpt.Sound.children` — **the inside of a type is made of types again**, or it is one dict-entry
* `Value.Sound.smooth` — **nothing that is kept can fail to be read**
-/

namespace DBusTypes

/-! ## Texts of types -/

/-- Whether a signature is the text of types. -/
def Signature.Sound (s : Signature) : Prop :=
  (∀ b ∈ s.text, b < 128) ∧ ∃ ts, s.text = Ty.renderAll ts ∧ Ty.Fit .top ts

/-- Whether a portion is exactly one of the types of its text. -/
def Portion.Sound (p : Portion) : Prop :=
  p.start < p.stop ∧ ∃ front t back, p.source = Ty.renderAll (front ++ t :: back) ∧
    Ty.Fit .top (front ++ t :: back) ∧ p.start = (Ty.renderAll front).length ∧
    p.stop = p.start + t.render.length ∧ p.code = t.code

/-- Whether an excerpt is exactly one type, or one dict-entry where an array that was `seen` before
has it for its element. -/
def Excerpt.Sound (seen : Excerpt → Prop) (x : Excerpt) : Prop :=
  x.text ≠ [] ∧ ∃ e : Element, e.Allowed .top .element ∧ x.text = e.render ∧ x.code = e.code ∧
    ∀ k v, e = .entry k v → ∃ y, seen y ∧ y.code = .array ∧ x ∈ y.children.toList

/-- Whether an iterator stands between two types of its text. -/
def Portions.Sound (it : Portions) : Prop :=
  ∃ front back, it.place.Between it.source .sequence front back

/-- Whether an iterator stands between two elements of its text, and gives sound excerpts. -/
structure Excerpts.Sound (seen : Excerpt → Prop) (it : Excerpts) : Prop where
  between : ∃ scope front back, it.place.Between it.text scope front back
  items : ∀ x ∈ it.toList, x.Sound seen

theorem Signature.sound_of_fit {limit : Depth} {ts : List Ty} {s : Signature}
    (ht : s.text = Ty.renderAll ts) (h : Ty.Fit limit ts) : s.Sound := by
  refine ⟨?_, ts, ht, h.top⟩
  rw [ht]
  exact Ty.lt_of_mem_renderAll ts

/-- A text that is checked is the text of types. -/
theorem Signature.sound_of_within {limits : Limits} {text : Bytes} {s : Signature}
    (h : within limits text = .ok s) : s.Sound := by
  obtain ⟨hc, rfl⟩ := within_ok_iff.mp h
  obtain ⟨-, ts, ht, hfit⟩ := check_ok_iff_fit.mp hc
  exact sound_of_fit ht hfit

/-- What is the text of an element is sound, if a dict-entry has its array. -/
theorem Excerpt.sound_of_element {seen : Excerpt → Prop} {x : Excerpt} {e : Element} {scope : Scope}
    (he : e.Allowed .top scope) (ht : x.text = e.render) (hc : x.code = e.code)
    (hentry : ∀ k v, e = .entry k v → ∃ y, seen y ∧ y.code = .array ∧ x ∈ y.children.toList) :
    x.Sound seen := by
  refine ⟨?_, e, ⟨fun _ => rfl, he.2⟩, ht, hc, hentry⟩
  rw [ht]
  exact e.render_ne_nil

/-! ## Portions -/

namespace Portion

variable {p : Portion}

/-- The text of a portion is cut out of its source. -/
theorem Sound.slice (h : p.Sound) : ∃ t, p.source.slice? p.start p.stop = some t.render ∧
    p.text = t.render ∧ p.code = t.code ∧ Ty.Fit .top [t] := by
  obtain ⟨-, front, t, back, hsource, hfit, hstart, hstop, hcode⟩ := h
  have hplain := Ty.lt_of_mem_renderAll (front ++ t :: back)
  rw [Ty.renderAll_append, Ty.renderAll, ← List.append_assoc] at hplain hsource
  have hs : p.source.slice? p.start p.stop = some t.render := by
    rw [hstop, hstart, hsource]
    exact Bytes.slice?_append hplain
  have ht := (Ty.fit_cons.mp (Ty.fit_append.mp hfit).2).1
  exact ⟨t, hs, by rw [text, hs, Option.getD_some], hcode, ht⟩

theorem Sound.excerpt (h : p.Sound) (seen : Excerpt → Prop) : p.excerpt.Sound seen := by
  obtain ⟨t, -, ht, hc, hfit⟩ := h.slice
  have hallowed := Element.allowed_sequence.mpr ⟨t, rfl, hfit⟩
  exact Excerpt.sound_of_element hallowed ht hc (by simp)

theorem Sound.signature (h : p.Sound) : p.signature.Sound := by
  obtain ⟨t, -, ht, -, hfit⟩ := h.slice
  have htext : p.signature.text = Ty.renderAll [t] := by
    rw [Ty.renderAll, Ty.renderAll, List.append_nil]
    exact ht
  exact Signature.sound_of_fit htext hfit

end Portion

namespace Portions

variable {it : Portions}

/-- The types of a signature are in front of its iterator, which is at its end where there are none. -/
theorem between_portions {s : Signature} {ts : List Ty} (ht : s.text = Ty.renderAll ts)
    (h : Ty.Fit .top ts) :
    s.portions.place.Between s.portions.source .sequence [] (ts.map .type) := by
  rw [Signature.portions, ofChecked]
  by_cases hnil : s.text = []
  · obtain rfl : ts = [] := Ty.renderAll_inj (ht.symm.trans hnil)
    rw [hnil]
    exact Bookmark.between_atEnd
  · rw [if_neg (by simpa using hnil), ht]
    exact Bookmark.between_types h

theorem sound_portions {s : Signature} (h : s.Sound) : s.portions.Sound := by
  obtain ⟨-, ts, ht, hfit⟩ := h
  exact ⟨_, _, between_portions ht hfit⟩

/-- What a sound iterator gives is sound, and so is what it becomes. -/
theorem Sound.next (h : it.Sound) : it.next.2.Sound ∧ ∀ p, it.next.1 = some p → p.Sound := by
  obtain ⟨front, back, hb⟩ := h
  cases back with
  | nil =>
    obtain ⟨m', hm, hb', -⟩ := Bookmark.advance_nil hb
    rw [Portions.next, hm]
    exact ⟨⟨_, _, hb'⟩, by simp⟩
  | cons e back =>
    obtain ⟨m', hm, hb', -⟩ := Bookmark.advance_cons hb
    rw [Portions.next, hm]
    refine ⟨⟨_, _, hb'⟩, ?_⟩
    intro p hp
    obtain rfl := Option.some.inj hp
    -- The elements on both sides are types, and the portion is one of them.
    obtain ⟨ts, hts, hfit⟩ := Element.exists_types hb.allowed
    obtain ⟨front, rest, rfl, rfl, hrest⟩ := List.append_eq_map_iff.mp hts
    obtain ⟨t, back, rfl, rfl, rfl⟩ := List.map_eq_cons_iff.mp hrest
    have hpos := List.length_pos_iff.mpr (Element.type t).render_ne_nil
    refine ⟨Nat.lt_add_of_pos_right hpos, front, t, back, ?_, hfit, ?_, rfl, rfl⟩
    · rw [hb.split, hts, Element.renderAll_map_type]
    · rw [Element.renderAll_map_type]

theorem Sound.drain (h : it.Sound) : it.drain.2.Sound ∧ ∀ p ∈ it.drain.1, p.Sound := by
  fun_induction Portions.drain it with
  | case1 it p it' hn r ih =>
    have hnext := h.next
    rw [hn] at hnext
    obtain ⟨hr, hitems⟩ := ih hnext.1
    refine ⟨hr, ?_⟩
    intro q hq
    rcases List.mem_cons.mp hq with rfl | hq
    · exact hnext.2 q rfl
    · exact hitems q hq
  | case2 it it' hn =>
    have hnext := h.next
    rw [hn] at hnext
    exact ⟨hnext.1, by simp⟩

theorem toList_none {it' : Portions} (h : it.next = (none, it')) : it.toList = [] := by
  rw [toList, drain]
  split
  · next p it'' hn => simp [h] at hn
  · rfl

theorem toList_some {it' : Portions} {p : Portion} (h : it.next = (some p, it')) :
    it.toList = p :: it'.toList := by
  rw [toList, drain]
  split
  · next q it'' hn =>
    obtain ⟨rfl, rfl⟩ : p = q ∧ it' = it'' := by simpa [h] using hn
    rfl
  · next it'' hn => simp [h] at hn

/-- The types that are given are those that would be cut out. -/
theorem map_excerpt_toList {front back : List Element}
    (h : it.place.Between it.source .sequence front back) :
    it.toList.map Portion.excerpt = Excerpts.cut (Element.renderAll front).length back := by
  induction back generalizing front it with
  | nil =>
    obtain ⟨m', hm, -, -⟩ := Bookmark.advance_nil h
    have hn : it.next = (none, { it with place := m' }) := by rw [next, hm]
    rw [toList_none hn]
    rfl
  | cons e back ih =>
    obtain ⟨m', hm, hb, hd⟩ := Bookmark.advance_cons h
    have hn : it.next = (some ⟨it.source, (Element.renderAll front).length,
        (Element.renderAll front).length + e.render.length, e.code, m'.done⟩,
        { it with place := m' }) := by rw [next, hm]
    have hrest : (Portions.mk it.source m').toList.map Portion.excerpt = _ := ih hb
    rw [toList_some hn, List.map_cons, hrest, Element.length_renderAll_snoc, Excerpts.cut,
      Portion.excerpt, Portion.text, h.slice_cons, hd]
    rfl

theorem Sound.iterate (h : it.Sound) (k : Nat) : ((fun it => it.next.2)^[k] it).Sound := by
  induction k generalizing it with
  | zero => exact h
  | succ k ih => exact ih h.next.1

theorem Sound.smooth (h : it.Sound) : it.place.Smooth it.source := by
  obtain ⟨front, back, hb⟩ := h
  exact hb.smooth

end Portions

/-! ## Excerpts -/

namespace Excerpt

variable {seen seen' : Excerpt → Prop} {x : Excerpt}

theorem Sound.mono (h : x.Sound seen) (hs : ∀ y, seen y → seen' y) : x.Sound seen' := by
  obtain ⟨hne, e, he, ht, hc, hentry⟩ := h
  refine ⟨hne, e, he, ht, hc, ?_⟩
  intro k v hkv
  obtain ⟨y, hy, harray, hx⟩ := hentry k v hkv
  exact ⟨y, hs y hy, harray, hx⟩

end Excerpt

namespace Excerpts

variable {seen seen' : Excerpt → Prop} {it : Excerpts}

theorem Sound.mono (h : it.Sound seen) (hs : ∀ y, seen y → seen' y) : it.Sound seen' :=
  ⟨h.between, fun x hx => (h.items x hx).mono hs⟩

/-- What is given where types are expected is sound, whatever has been seen. -/
theorem sound_of_between {front back : List Element}
    (h : it.place.Between it.text .sequence front back) : it.Sound seen := by
  refine ⟨⟨_, _, _, h⟩, ?_⟩
  intro x hx
  rw [toList_eq h] at hx
  obtain ⟨e, he, ht, hc⟩ := exists_of_mem_cut hx
  have hallowed := h.allowed e (List.mem_append_right _ he)
  refine Excerpt.sound_of_element hallowed ht hc ?_
  rintro k v rfl
  exact absurd (hallowed.1 rfl) (by simp)

/-- The types of a signature are in front of its iterator. -/
theorem between_excerpts {s : Signature} {ts : List Ty} (ht : s.text = Ty.renderAll ts)
    (h : Ty.Fit .top ts) :
    s.excerpts.place.Between s.excerpts.text .sequence [] (ts.map .type) := by
  rw [Signature.excerpts, ht]
  exact Bookmark.between_types h

theorem sound_excerpts {s : Signature} (h : s.Sound) : s.excerpts.Sound seen := by
  obtain ⟨-, ts, ht, hfit⟩ := h
  exact sound_of_between (between_excerpts ht hfit)

theorem Sound.next (h : it.Sound seen) :
    it.next.2.Sound seen ∧ ∀ x, it.next.1 = some x → x.Sound seen := by
  obtain ⟨scope, front, back, hb⟩ := h.between
  have hitems := h.items
  rw [toList_eq hb] at hitems
  cases back with
  | nil =>
    obtain ⟨it', hn, ht, hb', -⟩ := next_nil hb
    rw [← ht] at hb'
    rw [hn]
    refine ⟨⟨⟨_, _, _, hb'⟩, ?_⟩, by simp⟩
    rw [toList_eq hb']
    exact hitems
  | cons e back =>
    obtain ⟨it', hn, ht, hb'⟩ := next_cons hb
    rw [← ht] at hb'
    rw [hn]
    refine ⟨⟨⟨_, _, _, hb'⟩, ?_⟩, ?_⟩
    · rw [toList_eq hb', Element.length_renderAll_snoc]
      exact fun x hx => hitems x (List.mem_cons_of_mem _ hx)
    · intro x hx
      obtain rfl := Option.some.inj hx
      exact hitems _ List.mem_cons_self

theorem Sound.drain (h : it.Sound seen) : it.drain.2.Sound seen ∧ ∀ x ∈ it.drain.1, x.Sound seen := by
  obtain ⟨scope, front, back, hb⟩ := h.between
  obtain ⟨it', hd, ht, hb', -⟩ := drain_eq hb
  rw [← ht] at hb'
  refine ⟨?_, h.items⟩
  rw [hd]
  refine ⟨⟨_, _, _, hb'⟩, ?_⟩
  rw [toList_eq hb']
  exact fun x hx => absurd hx List.not_mem_nil

theorem Sound.iterate (h : it.Sound seen) (k : Nat) :
    ((fun it => it.next.2)^[k] it).Sound seen := by
  induction k generalizing it with
  | zero => exact h
  | succ k ih => exact ih h.next.1

theorem Sound.smooth (h : it.Sound seen) : it.place.Smooth it.text := by
  obtain ⟨scope, front, back, hb⟩ := h.between
  exact hb.smooth

end Excerpts

/-- **The inside of a type is made of types again**, or it is the one dict-entry that an array has for
its element. -/
theorem Excerpt.Sound.children {seen : Excerpt → Prop} {x : Excerpt} (h : x.Sound seen)
    (hs : seen x) : x.children.Sound seen := by
  obtain ⟨-, e, he, ht, hc, -⟩ := h
  have hb := Element.between_parts he
  rw [← ht, ← hc] at hb
  refine ⟨⟨_, _, _, hb⟩, ?_⟩
  intro y hy
  have hmem := hy
  rw [toList_children he ht hc] at hmem
  obtain ⟨p, hp, ht', hc'⟩ := Excerpts.exists_of_mem_cut hmem
  have hallowed := Element.allowed_of_mem_parts he hp
  refine Excerpt.sound_of_element hallowed ht' hc' ?_
  -- A dict-entry is read only in an array, and the array is `x`.
  rintro k v rfl
  exact ⟨x, hs, hc.trans (Code.eq_array_of_inner (hallowed.1 rfl)), hy⟩

/-! ## Values and answers -/

/-- Whether what a slot holds is made of types, or stands between them. -/
def Value.Sound (seen : Excerpt → Prop) : Value → Prop
  | .signature s => s.Sound
  | .portions it => it.Sound
  | .excerpts it => it.Sound seen
  | .portion p => p.Sound
  | .excerpt x => x.Sound seen

/-- Whether what a step gives is made of types. -/
def Answer.Sound (seen : Excerpt → Prop) : Answer → Prop
  | .signature s => s.Sound
  | .item x => x.Sound seen
  | .items xs => ∀ x ∈ xs, x.Sound seen
  | _ => True

/-- Whether the types of a signature are counted up to its end, and not up to a fault. -/
def Signature.Smooth (s : Signature) : Prop :=
  checkFrom (.unbounded .sequence) 0 s.text = .ok () ∧
    ∀ ts, s.text = Ty.renderAll ts → s.count = ts.length

/-- Whether reading a value meets nothing that a checked text rules out: no call of an iterator does,
the text of a portion can be cut out, and what is inside an item can be gone through. -/
def Value.Smooth : Value → Prop
  | .signature s => s.Smooth
  | .portions it => ∀ k, let it' := (fun it => it.next.2)^[k] it
    it'.place.Smooth it'.source
  | .excerpts it => ∀ k, let it' := (fun it => it.next.2)^[k] it
    it'.place.Smooth it'.text
  | .portion p => (p.source.slice? p.start p.stop).isSome = true
  | .excerpt x => ∀ k, let it' := (fun it => it.next.2)^[k] x.children
    it'.place.Smooth it'.text

theorem Signature.Sound.of_text {s s' : Signature} (h : s.Sound) (ht : s'.text = s.text) :
    s'.Sound := by
  rw [Sound, ht]
  exact h

theorem Signature.Sound.smooth {s : Signature} (h : s.Sound) : s.Smooth := by
  obtain ⟨-, ts, ht, hfit⟩ := h
  refine ⟨(checkFrom_ok_iff rfl).mpr ⟨ts, ht, hfit⟩, ?_⟩
  intro us hu
  obtain rfl : us = ts := Ty.renderAll_inj (hu.symm.trans ht)
  rw [Signature.count, ht]
  exact countTypes_renderAll hfit

namespace Value

variable {seen seen' : Excerpt → Prop} {v : Value}

theorem Sound.mono (h : v.Sound seen) (hs : ∀ y, seen y → seen' y) : v.Sound seen' := by
  cases v with
  | signature s | portions it | portion p => exact h
  | excerpts it => exact Excerpts.Sound.mono h hs
  | excerpt x => exact Excerpt.Sound.mono h hs

/-- **What is sound is read without meeting anything that a checked text rules out.** -/
theorem Sound.smooth (h : v.Sound seen) : v.Smooth := by
  cases v with
  | signature s => exact Signature.Sound.smooth h
  | portions it =>
    intro k
    exact (Portions.Sound.iterate h k).smooth
  | excerpts it =>
    intro k
    exact (Excerpts.Sound.iterate h k).smooth
  | portion p =>
    obtain ⟨t, ht, -⟩ := Portion.Sound.slice h
    rw [Smooth, ht]
    rfl
  | excerpt x =>
    intro k
    -- Which arrays have been seen does not matter here.
    have hx : x.Sound fun _ => True := Excerpt.Sound.mono h fun _ _ => trivial
    exact (hx.children trivial |>.iterate k).smooth

/-- What is shown of a value is sound where the value is. -/
theorem Sound.answer (h : v.Sound seen) : v.answer.Sound seen := by
  cases v with
  | signature s => exact h
  | portions it | excerpts it => trivial
  | portion p => exact Portion.Sound.excerpt h seen
  | excerpt x => exact h

end Value

theorem Answer.Sound.mono {seen seen' : Excerpt → Prop} {a : Answer} (h : a.Sound seen)
    (hs : ∀ y, seen y → seen' y) : a.Sound seen' := by
  cases a with
  | item x => exact Excerpt.Sound.mono h hs
  | items xs => exact fun x hx => (h x hx).mono hs
  | signature s => exact h
  | _ => trivial

end DBusTypes
