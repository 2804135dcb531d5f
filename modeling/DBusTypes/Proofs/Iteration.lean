import Mathlib.Logic.Function.Iterate
import DBusTypes.Excerpt
import DBusTypes.Proofs.Acceptance
import DBusTypes.Proofs.Prefix

/-!
# Going through a text

A bookmark always stands between two elements of its text: those it has passed and those that are
still to come. Moving on takes the first of the latter to the former, and meets none of what a
checked text rules out.

* `Bookmark.Between` — which elements have been passed, and which are to come
* `Bookmark.advance_cons`, `Bookmark.advance_nil` — **moving on, one element or none at the end**
* `Bookmark.Smooth` — nothing is met on the way that a checked text rules out
* `Excerpts.drain_eq` — **what is given is what is to come, each element at its place**
* `Excerpts.next_iterate` — the same for every single call
-/

namespace DBusTypes

/-! ## Cutting -/

namespace Bytes

/-- A cut in front of a character of one byte falls between two characters. -/
theorem startsCharacter_of_lt {b : Bytes} (h : ∀ c ∈ b, c < 128) : startsCharacter b = true := by
  cases b with
  | nil => rfl
  | cons c b =>
    have hc : c.toNat < 128 := UInt8.lt_iff_toNat_lt.mp (h c List.mem_cons_self)
    have key : ∀ n < 128, (UInt8.ofNat n &&& 0xC0 != 0x80) = true := by decide
    have hn := key c.toNat hc
    rw [UInt8.ofNat_toNat] at hn
    exact hn

/-- A text of such characters can be cut anywhere. -/
theorem slice?_append {u v w : Bytes} (h : ∀ c ∈ u ++ v ++ w, c < 128) :
    slice? (u ++ v ++ w) u.length (u.length + v.length) = some v := by
  have hu : startsCharacter ((u ++ v ++ w).drop u.length) = true :=
    startsCharacter_of_lt fun c hc => h c (List.mem_of_mem_drop hc)
  have hv : startsCharacter ((u ++ v ++ w).drop (u.length + v.length)) = true :=
    startsCharacter_of_lt fun c hc => h c (List.mem_of_mem_drop hc)
  rw [slice?, if_pos ⟨Nat.le_add_right _ _, by simp, hu, hv⟩]
  simp

end Bytes

/-! ## The elements of a text -/

/-- No limit allows more than the greatest. -/
theorem Depth.toNat_le_top (limit : Depth) : limit.containers.toNat ≤ top.containers.toNat ∧
    limit.entries.toNat ≤ top.entries.toNat :=
  ⟨Nat.le_pred_of_lt limit.containers.toNat_lt, Nat.le_pred_of_lt limit.entries.toNat_lt⟩

/-- What fits within any limit fits within the greatest. -/
theorem Ty.Fit.top {limit : Depth} {ts : List Ty} (h : Fit limit ts) : Fit .top ts :=
  ⟨Nat.le_trans h.1 limit.toNat_le_top.1, Nat.le_trans h.2 limit.toNat_le_top.2⟩

namespace Element

/-- The texts of several elements, one after the other. -/
def renderAll (es : List Element) : Bytes := es.flatMap render

theorem renderAll_cons (e : Element) (es : List Element) :
    renderAll (e :: es) = e.render ++ renderAll es := List.flatMap_cons

theorem renderAll_append (es fs : List Element) :
    renderAll (es ++ fs) = renderAll es ++ renderAll fs := List.flatMap_append

theorem length_renderAll_snoc (es : List Element) (e : Element) :
    (renderAll (es ++ [e])).length = (renderAll es).length + e.render.length := by
  simp [renderAll]

theorem length_render_le_of_mem {p : Element} {ps : List Element} (h : p ∈ ps) :
    p.render.length ≤ (renderAll ps).length := by
  obtain ⟨l, r, rfl⟩ := List.append_of_mem h
  rw [renderAll_append, renderAll_cons, List.length_append, List.length_append]
  omega

/-- The texts of types are texts of elements. -/
theorem renderAll_map_type (ts : List Ty) : renderAll (ts.map type) = Ty.renderAll ts := by
  induction ts with
  | nil => rfl
  | cons t ts ih => rw [List.map_cons, renderAll_cons, ih, Ty.renderAll, render]

theorem renderAll_eq_nil {es : List Element} (h : renderAll es = []) : es = [] := by
  cases es with
  | nil => rfl
  | cons e es =>
    rw [renderAll_cons] at h
    exact absurd (List.append_eq_nil_iff.mp h).1 e.render_ne_nil

theorem lt_of_mem_render (e : Element) : ∀ b ∈ e.render, b < 128 := by
  cases e with
  | type t => exact t.lt_of_mem_render
  | entry k v =>
    intro b h
    -- A dict-entry is a part of the text of its array.
    refine (Ty.dict k v).lt_of_mem_render b ?_
    rw [Ty.render]
    exact List.mem_cons_of_mem _ h

theorem lt_of_mem_renderAll {es : List Element} : ∀ b ∈ renderAll es, b < 128 := by
  intro b h
  obtain ⟨e, -, hb⟩ := List.mem_flatMap.mp h
  exact e.lt_of_mem_render b hb

/-- The code in front of an element reads back. -/
theorem ofByte?_head (e : Element) (u : Bytes) :
    (e.render ++ u)[0]?.bind Code.ofByte? = some e.code := by
  obtain ⟨r, hr⟩ := e.exists_render
  rw [hr]
  exact Code.ofByte?_byte e.code

/-- Where types are expected, the elements are types. -/
theorem exists_types {limit : Depth} {es : List Element}
    (h : ∀ e ∈ es, e.Allowed limit .sequence) : ∃ ts, es = ts.map type ∧ Ty.Fit limit ts := by
  induction es with
  | nil => exact ⟨[], rfl, Nat.zero_le _, Nat.zero_le _⟩
  | cons e es ih =>
    obtain ⟨t, rfl, ht⟩ := allowed_sequence.mp (h e List.mem_cons_self)
    obtain ⟨ts, rfl, hts⟩ := ih fun e' he => h e' (List.mem_cons_of_mem _ he)
    exact ⟨t :: ts, rfl, Ty.fit_cons.mpr ⟨ht, hts⟩⟩

theorem allowed_of_fit {limit : Depth} {ts : List Ty} (h : Ty.Fit limit ts) :
    ∀ e ∈ ts.map type, e.Allowed limit .sequence := by
  intro e he
  induction ts with
  | nil => exact absurd he List.not_mem_nil
  | cons t ts ih =>
    obtain ⟨ht, hts⟩ := Ty.fit_cons.mp h
    rcases List.mem_cons.mp he with rfl | he
    · exact allowed_sequence.mpr ⟨t, rfl, ht⟩
    · exact ih hts he

end Element

/-! ## Moving on -/

namespace TypeReader

variable {r : TypeReader} {front rest : Bytes}

/-- Where an element stands, reading gives the offset behind it. -/
theorem readAt_element {e : Element} (h : e.Allowed r.limit r.scope) :
    (r.readAt (front ++ (e.render ++ rest)) front.length).2 =
      .ok (some (front.length + e.render.length)) :=
  readAt_some_iff.mpr ⟨e, rest, h, List.drop_left, rfl⟩

/-- At the end, reading gives nothing. -/
theorem readAt_end : (r.readAt front front.length).2 = .ok none := by
  rw [readAt, List.drop_length, read_nil]
  rfl

theorem readAt_reader (r : TypeReader) (text : Bytes) (start : Nat) :
    (r.readAt text start).1.limit = r.limit ∧ (r.readAt text start).1.scope = r.scope :=
  r.read_reader start (text.drop start)

end TypeReader

/-- Whether a bookmark stands in a text between the elements `front` and the elements `back`. -/
structure Bookmark.Between (text : Bytes) (scope : Scope) (front back : List Element)
    (m : Bookmark) : Prop where
  split : text = Element.renderAll (front ++ back)
  allowed : ∀ e ∈ front ++ back, e.Allowed .top scope
  /-- In an array there is one element. -/
  single : scope = .element → (front ++ back).length ≤ 1
  limit : m.reader.limit = .top
  scope : m.reader.scope = scope
  offset : m.offset = (Element.renderAll front).length
  done : m.done = true → back = []

namespace Bookmark

variable {text : Bytes} {scope : Scope} {front back : List Element} {e : Element} {m : Bookmark}

/-- In front of everything in a text. -/
theorem between_new {es : List Element} (ht : text = Element.renderAll es)
    (he : ∀ e ∈ es, e.Allowed .top scope) (hs : scope = .element → es.length ≤ 1) :
    (new scope).Between text scope [] es :=
  ⟨ht, he, hs, rfl, rfl, rfl, fun h => absurd h (by simp [new])⟩

theorem Between.lt_of_mem (h : m.Between text scope front back) : ∀ b ∈ text, b < 128 := by
  rw [h.split]
  exact Element.lt_of_mem_renderAll

/-- Where an element is to come, the bookmark is not at the end, and the text goes on with it. -/
theorem Between.ahead (h : m.Between text scope front (e :: back)) :
    m.done = false ∧ text = Element.renderAll front ++ (e.render ++ Element.renderAll back) := by
  constructor
  · cases hd : m.done with
    | false => rfl
    | true => exact absurd (h.done hd) (List.cons_ne_nil _ _)
  · rw [h.split, Element.renderAll_append, Element.renderAll_cons]

theorem Between.readAt_cons (h : m.Between text scope front (e :: back)) :
    (m.reader.readAt text m.offset).2 =
      .ok (some ((Element.renderAll front).length + e.render.length)) := by
  have he : e.Allowed m.reader.limit m.reader.scope := by
    rw [h.limit, h.scope]
    exact h.allowed e (by simp)
  rw [h.ahead.2, h.offset]
  exact TypeReader.readAt_element he

theorem Between.readAt_nil (h : m.Between text scope front []) :
    (m.reader.readAt text m.offset).2 = .ok none := by
  rw [h.offset, h.split, List.append_nil]
  exact TypeReader.readAt_end

theorem Between.code_cons (h : m.Between text scope front (e :: back)) :
    text[m.offset]?.bind Code.ofByte? = some e.code := by
  rw [h.ahead.2, h.offset, List.getElem?_append_right (Nat.le_refl _), Nat.sub_self]
  exact e.ofByte?_head _

theorem Between.slice_cons (h : m.Between text scope front (e :: back)) :
    text.slice? (Element.renderAll front).length
      ((Element.renderAll front).length + e.render.length) = some e.render := by
  have htext := h.ahead.2
  rw [← List.append_assoc] at htext
  have hplain := h.lt_of_mem
  rw [htext] at hplain ⊢
  exact Bytes.slice?_append hplain

/-- Once an element is passed, it is behind the bookmark. -/
theorem Between.pass (h : m.Between text scope front (e :: back)) {r : TypeReader} {done : Bool}
    (hr : r.limit = m.reader.limit ∧ r.scope = m.reader.scope) (hd : done = true → back = []) :
    Between text scope (front ++ [e]) back
      ⟨r, (Element.renderAll front).length + e.render.length, done⟩ where
  split := by rw [h.split, List.append_cons]
  allowed := by
    rw [← List.append_cons]
    exact h.allowed
  single := by
    rw [← List.append_cons]
    exact h.single
  limit := hr.1.trans h.limit
  scope := hr.2.trans h.scope
  offset := (Element.length_renderAll_snoc front e).symm
  done := hd

/-- **Moving on, an element is passed**, and behind the last one the bookmark is at the end. -/
theorem advance_cons (h : m.Between text scope front (e :: back)) :
    ∃ m', m.advance text = (some ⟨(Element.renderAll front).length,
        (Element.renderAll front).length + e.render.length, e.code⟩, m') ∧
      m'.Between text scope (front ++ [e]) back ∧ m'.done = back.isEmpty := by
  -- No element is empty, so the text ends only where no element is left.
  have hend : (text.length ≤ (Element.renderAll front).length + e.render.length) ↔ back = [] := by
    rw [h.ahead.2, List.length_append, List.length_append]
    constructor
    · intro hle
      exact Element.renderAll_eq_nil (List.length_eq_zero_iff.mp (by omega))
    · rintro rfl
      simp [Element.renderAll]
  cases hread : m.reader.readAt text m.offset with
  | mk r res =>
    have hr := m.reader.readAt_reader text m.offset
    have hres := h.readAt_cons
    rw [hread] at hr hres
    obtain rfl : res = .ok (some _) := hres
    refine ⟨⟨r, (Element.renderAll front).length + e.render.length, back.isEmpty⟩, ?_,
      h.pass hr (by simp), rfl⟩
    have hb : decide (text.length ≤ (Element.renderAll front).length + e.render.length) =
        back.isEmpty := by
      rw [Bool.eq_iff_iff, decide_eq_true_iff, hend, List.isEmpty_iff]
    rw [advance, if_neg (by simp [h.ahead.1]), hread]
    simp only [h.code_cons, hb]
    rw [h.offset]

/-- **With nothing to come, nothing is given**, and the bookmark is at the end. -/
theorem advance_nil (h : m.Between text scope front []) :
    ∃ m', m.advance text = (none, m') ∧ m'.Between text scope front [] ∧ m'.done = true := by
  cases hd : m.done with
  | true => exact ⟨m, by rw [advance, if_pos hd], h, hd⟩
  | false =>
    cases hread : m.reader.readAt text m.offset with
    | mk r res =>
      have hr := m.reader.readAt_reader text m.offset
      have hres := h.readAt_nil
      rw [hread] at hr hres
      obtain rfl : res = .ok none := hres
      refine ⟨⟨r, m.offset, true⟩, ?_, ?_, rfl⟩
      · rw [advance, if_neg (by simp [hd]), hread]
      · exact ⟨h.split, h.allowed, h.single, hr.1.trans h.limit, hr.2.trans h.scope, h.offset, fun _ => rfl⟩

/-- Whether moving on meets nothing that a checked text rules out: no fault, no byte that is not a
code, and no end of an element inside a character. -/
def Smooth (text : Bytes) (m : Bookmark) : Prop :=
  m.done = true ∨ ∃ stop?, (m.reader.readAt text m.offset).2 = .ok stop? ∧
    ∀ stop, stop? = some stop → (text[m.offset]?.bind Code.ofByte?).isSome = true ∧
      (text.slice? m.offset stop).isSome = true

theorem Between.smooth (h : m.Between text scope front back) : m.Smooth text := by
  cases back with
  | nil => exact Or.inr ⟨none, h.readAt_nil, by simp⟩
  | cons e back =>
    refine Or.inr ⟨_, h.readAt_cons, ?_⟩
    intro stop hstop
    obtain rfl := Option.some.inj hstop
    rw [h.code_cons, h.offset, h.slice_cons]
    exact ⟨rfl, rfl⟩

end Bookmark

/-! ## Elements cut out of a text -/

namespace Excerpts

variable {scope : Scope} {front back : List Element} {e : Element} {it : Excerpts}

/-- The elements of a text that follow each other from `offset` up to its end. -/
def cut (offset : Nat) : List Element → List Excerpt
  | [] => []
  | e :: es => ⟨e.render, offset, e.code, es.isEmpty⟩ :: cut (offset + e.render.length) es

theorem next_cons (h : it.place.Between it.text scope front (e :: back)) :
    ∃ it', it.next =
        (some ⟨e.render, (Element.renderAll front).length, e.code, back.isEmpty⟩, it') ∧
      it'.text = it.text ∧ it'.place.Between it.text scope (front ++ [e]) back := by
  obtain ⟨m', hm, hb, hd⟩ := Bookmark.advance_cons h
  refine ⟨⟨it.text, m'⟩, ?_, rfl, hb⟩
  rw [next, hm]
  simp only [h.slice_cons, hd, Option.map_some]

theorem next_nil (h : it.place.Between it.text scope front []) :
    ∃ it', it.next = (none, it') ∧ it'.text = it.text ∧
      it'.place.Between it.text scope front [] ∧ it'.place.done = true := by
  obtain ⟨m', hm, hb, hd⟩ := Bookmark.advance_nil h
  refine ⟨⟨it.text, m'⟩, ?_, rfl, hb, hd⟩
  rw [next, hm]

/-- **What is given is what is to come**, each element at its place, and then the end is reached. -/
theorem drain_eq (h : it.place.Between it.text scope front back) :
    ∃ it', it.drain = (cut (Element.renderAll front).length back, it') ∧ it'.text = it.text ∧
      it'.place.Between it.text scope (front ++ back) [] ∧ it'.place.done = true := by
  induction back generalizing front it with
  | nil =>
    obtain ⟨it', hn, ht, hb, hd⟩ := next_nil h
    refine ⟨it', ?_, ht, by rw [List.append_nil]; exact hb, hd⟩
    rw [drain]
    split
    · next x it'' hx => simp [hn] at hx
    · next it'' hx =>
      obtain rfl : it' = it'' := by simpa [hn] using hx
      rfl
  | cons e back ih =>
    obtain ⟨it₁, hn, ht, hb⟩ := next_cons h
    rw [← ht] at hb
    obtain ⟨it', hdr, ht', hb', hd⟩ := ih hb
    rw [ht, ← List.append_cons] at hb'
    refine ⟨it', ?_, ht'.trans ht, hb', hd⟩
    rw [drain]
    split
    · next x it'' hx =>
      obtain ⟨rfl, rfl⟩ : _ = x ∧ it₁ = it'' := by simpa [hn] using hx
      rw [hdr, Element.length_renderAll_snoc]
      rfl
    · next it'' hx => simp [hn] at hx

/-- What is given up to the end. -/
theorem toList_eq (h : it.place.Between it.text scope front back) :
    it.toList = cut (Element.renderAll front).length back := by
  obtain ⟨it', hdr, -⟩ := drain_eq h
  rw [toList, hdr]

/-- **Every call gives the element it comes to**, and those after the last one give nothing. -/
theorem next_iterate (h : it.place.Between it.text scope front back) (k : Nat) :
    ((fun it => it.next.2)^[k] it).next.1 = (cut (Element.renderAll front).length back)[k]? := by
  induction k generalizing front back it with
  | zero =>
    cases back with
    | nil =>
      obtain ⟨it', hn, -⟩ := next_nil h
      rw [Function.iterate_zero, id, hn]
      rfl
    | cons e back =>
      obtain ⟨it', hn, -⟩ := next_cons h
      rw [Function.iterate_zero, id, hn]
      rfl
  | succ k ih =>
    rw [Function.iterate_succ_apply]
    cases back with
    | nil =>
      obtain ⟨it', hn, ht, hb, -⟩ := next_nil h
      rw [hn]
      rw [← ht] at hb
      exact ih hb
    | cons e back =>
      obtain ⟨it', hn, ht, hb⟩ := next_cons h
      rw [hn]
      rw [← ht] at hb
      rw [ih hb, Element.length_renderAll_snoc]
      rfl

end Excerpts

end DBusTypes
