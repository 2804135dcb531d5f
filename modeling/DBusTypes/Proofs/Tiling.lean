import DBusTypes.Proofs.Iteration

/-!
# The types of a text tile it

Going through a text and writing types one after the other are inverse to each other: the types that
are given leave no gap and do not overlap, and what was written type by type is given back type by
type.

* `Excerpts.getElem?_cut` — where each element of a text stands
* `Tiling` — excerpts that follow each other and make up a text
* `iteration_inverse` — **going through a text and concatenating types are inverse**
-/

namespace DBusTypes

namespace Excerpts

/-- Where each element of a text stands. -/
theorem getElem?_cut (offset : Nat) (es : List Element) (i : Nat) :
    (cut offset es)[i]? = es[i]?.map fun e =>
      ⟨e.render, offset + (Element.renderAll (es.take i)).length, e.code, i + 1 == es.length⟩ := by
  induction es generalizing offset i with
  | nil => rfl
  | cons e es ih =>
    cases i with
    | zero => cases es <;> simp [cut, Element.renderAll]
    | succ i =>
      rw [cut, List.getElem?_cons_succ, ih, List.getElem?_cons_succ, List.take_succ_cons,
        Element.renderAll_cons, List.length_append, Nat.add_assoc]
      simp

theorem length_cut (offset : Nat) (es : List Element) : (cut offset es).length = es.length := by
  induction es generalizing offset with
  | nil => rfl
  | cons e es ih => rw [cut, List.length_cons, List.length_cons, ih]

theorem map_text_cut (offset : Nat) (es : List Element) :
    (cut offset es).map (·.text) = es.map Element.render := by
  induction es generalizing offset with
  | nil => rfl
  | cons e es ih => rw [cut, List.map_cons, List.map_cons, ih]

/-- Every excerpt that is cut is an element. -/
theorem exists_of_mem_cut {offset : Nat} {es : List Element} {x : Excerpt} (h : x ∈ cut offset es) :
    ∃ e ∈ es, x.text = e.render ∧ x.code = e.code := by
  obtain ⟨i, hi⟩ := List.mem_iff_getElem?.mp h
  rw [getElem?_cut] at hi
  obtain ⟨e, he, rfl⟩ := Option.map_eq_some_iff.mp hi
  exact ⟨e, List.mem_of_getElem? he, rfl, rfl⟩

end Excerpts

/-- Excerpts that follow each other without a gap and make up a text. -/
structure Tiling (text : Bytes) (xs : List Excerpt) : Prop where
  first : ∀ x, xs[0]? = some x → x.offset = 0
  step : ∀ i x y, xs[i]? = some x → xs[i + 1]? = some y → y.offset = x.offset + x.text.length
  finish : ∀ x, xs.getLast? = some x → x.offset + x.text.length = text.length
  whole : xs.flatMap (·.text) = text
  code : ∀ x ∈ xs, x.text.head?.bind Code.ofByte? = some x.code
  last : ∀ i x, xs[i]? = some x → (x.last = true ↔ i + 1 = xs.length)

/-- Cut at its elements, a text is tiled. -/
theorem tiling_cut (es : List Element) : Tiling (Element.renderAll es) (Excerpts.cut 0 es) where
  first := by
    intro x hx
    rw [Excerpts.getElem?_cut] at hx
    obtain ⟨e, -, rfl⟩ := Option.map_eq_some_iff.mp hx
    simp [Element.renderAll]
  step := by
    intro i x y hx hy
    rw [Excerpts.getElem?_cut] at hx hy
    obtain ⟨e, he, rfl⟩ := Option.map_eq_some_iff.mp hx
    obtain ⟨f, -, rfl⟩ := Option.map_eq_some_iff.mp hy
    rw [List.take_add_one, he, Option.toList_some, Element.length_renderAll_snoc]
    exact (Nat.add_assoc ..).symm
  finish := by
    intro x hx
    rw [List.getLast?_eq_getElem?, Excerpts.length_cut, Excerpts.getElem?_cut] at hx
    obtain ⟨e, he, rfl⟩ := Option.map_eq_some_iff.mp hx
    obtain ⟨hlt, -⟩ := List.getElem?_eq_some_iff.mp he
    -- The last element and those before it are all of them.
    have hall : es.take (es.length - 1) ++ [e] = es := by
      have htake := List.take_add_one (l := es) (i := es.length - 1)
      rw [he, Nat.sub_add_cancel (by omega), List.take_length] at htake
      exact htake.symm
    rw [Nat.zero_add, ← Element.length_renderAll_snoc, hall]
  whole := by
    rw [List.flatMap_def, Excerpts.map_text_cut, ← List.flatMap_def]
    rfl
  code := by
    intro x hx
    obtain ⟨e, -, ht, hc⟩ := Excerpts.exists_of_mem_cut hx
    rw [ht, hc, ← List.append_nil e.render, List.head?_eq_getElem?]
    exact e.ofByte?_head []
  last := by
    intro i x hx
    rw [Excerpts.getElem?_cut] at hx
    obtain ⟨e, -, rfl⟩ := Option.map_eq_some_iff.mp hx
    rw [Excerpts.length_cut]
    exact beq_iff_eq

/-! ## Iteration -/

/-- Going through a text that is accepted starts in front of the types it is the text of. -/
theorem Excerpts.ofBytes_ok_iff {limits : Limits} {text : Bytes} {it : Excerpts} :
    ofBytes limits text = .ok it ↔ check limits text = .ok () ∧ it = ofChecked .sequence text := by
  rw [ofBytes, seq_eq_ok]
  exact and_congr_right fun _ => ⟨fun h => (Except.ok.inj h).symm, fun h => congrArg Except.ok h.symm⟩

/-- What is accepted can be gone through: all its types are to come. -/
theorem Excerpts.between_ofBytes {limits : Limits} {text : Bytes} {it : Excerpts}
    (h : ofBytes limits text = .ok it) :
    ∃ ts : List Ty, text = Ty.renderAll ts ∧ it.text = text ∧
      it.place.Between it.text .sequence [] (ts.map .type) := by
  obtain ⟨hc, rfl⟩ := ofBytes_ok_iff.mp h
  obtain ⟨-, ts, ht, hfit⟩ := check_ok_iff_fit.mp hc
  refine ⟨ts, ht, rfl, Bookmark.between_new ?_ (Element.allowed_of_fit hfit.top) (by simp)⟩
  rw [Element.renderAll_map_type]
  exact ht

/-- **Going through a text and concatenating types are inverse to each other.** What an accepted text
gives tiles it, call by call and then nothing any more; and a text that was concatenated gives the
types it was made of, which is the only way to take it apart. -/
theorem iteration_inverse (limits : Limits) :
    (∀ text it, Excerpts.ofBytes limits text = .ok it →
      Tiling text it.toList ∧ (text = [] → it.toList = []) ∧
        ∀ k, ((fun it => it.next.2)^[k] it).next.1 = it.toList[k]?) ∧
    (∀ ts, check limits (Ty.renderAll ts) = .ok () →
      (∃ it, Excerpts.ofBytes limits (Ty.renderAll ts) = .ok it ∧
        it.toList.map (·.text) = ts.map Ty.render) ∧
      ∀ us, Ty.renderAll us = Ty.renderAll ts → us = ts) ∧
    ∀ t u : Ty, t.render <+: u.render → t = u := by
  refine ⟨?_, ?_, fun t u => Ty.eq_of_render_prefix⟩
  · intro text it h
    obtain ⟨ts, ht, hit, hb⟩ := Excerpts.between_ofBytes h
    have hlist : it.toList = Excerpts.cut 0 (ts.map .type) := Excerpts.toList_eq hb
    have htiling := tiling_cut (ts.map .type)
    rw [Element.renderAll_map_type, ← ht, ← hlist] at htiling
    refine ⟨htiling, ?_, ?_⟩
    · intro hnil
      have hes : ts.map Element.type = [] := by
        refine Element.renderAll_eq_nil ?_
        rw [Element.renderAll_map_type, ← ht, hnil]
      rw [hlist, hes]
      rfl
    · intro k
      rw [hlist]
      exact Excerpts.next_iterate hb k
  · intro ts hc
    refine ⟨?_, fun us => Ty.renderAll_inj⟩
    have h := Excerpts.ofBytes_ok_iff.mpr ⟨hc, rfl⟩
    obtain ⟨us, hu, -, hb⟩ := Excerpts.between_ofBytes h
    obtain rfl := Ty.renderAll_inj hu
    refine ⟨_, h, ?_⟩
    rw [Excerpts.toList_eq hb, Excerpts.map_text_cut, List.map_map]
    rfl

/-- The text `ia{sv}` gives `i` and `a{sv}`. -/
theorem iteration_inverse_int_dict :
    check .standard [0x69, 0x61, 0x7b, 0x73, 0x76, 0x7d] = .ok () ∧
      ∃ it, Excerpts.ofBytes .standard [0x69, 0x61, 0x7b, 0x73, 0x76, 0x7d] = .ok it ∧
        it.toList.map (·.text) = [[0x69], [0x61, 0x7b, 0x73, 0x76, 0x7d]] := by
  have hc : check .standard (Ty.renderAll [.basic .int32, .dict .string .variant]) = .ok () :=
    check_ok_iff_fit.mpr ⟨by decide, _, rfl, by decide⟩
  exact ⟨hc, ((iteration_inverse .standard).2.1 _ hc).1⟩

end DBusTypes
