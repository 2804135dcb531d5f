import DBusTypes.TypeTree
import DBusTypes.Proofs.Builders

/-!
# A type alone

A portion becomes a signature without its text being checked again. That is sound because a type has
no need of what is around it: the text that it was accepted in is no shorter and nests no less, so
alone it is accepted under the same limits, and it has the same types in it.

* `Ty.check_of_mem` — a type of an accepted text is accepted alone
* `Portion.Alone` — as a signature of its own, a portion is what it was as a part
* `portion_alone` — **every type of an accepted text is alone what it is in that text**
-/

namespace DBusTypes

variable {limits : Limits} {s : Signature} {p : Portion} {t : Ty} {ts : List Ty}

/-- A type of an accepted text is accepted alone, under the same limits. -/
theorem Ty.check_of_mem (h : check limits (renderAll ts) = .ok ()) (ht : t ∈ ts) :
    check limits t.render = .ok () := by
  obtain ⟨hlength, hfit⟩ := check_renderAll_iff.mp h
  have hle : t.render.length ≤ (renderAll ts).length := by
    have hmem := Element.length_render_le_of_mem (List.mem_map_of_mem (f := Element.type) ht)
    rwa [Element.renderAll_map_type] at hmem
  rw [← renderAll_singleton, check_renderAll_iff, renderAll_singleton]
  exact ⟨fun n hn => Nat.le_trans hle (hlength n hn), hfit.of_mem ht⟩

namespace Portion

/-- Whether a portion, as a signature of its own, is what it was as a part of a text that the limits
accept: one type with the same text, the same code and the same types in it. -/
structure Alone (limits : Limits) (p : Portion) : Prop where
  cut : p.source.slice? p.start p.stop = some p.signature.text
  accepted : check limits p.signature.text = .ok ()
  /-- The check that was left out would have given the same. -/
  within : Signature.within limits p.signature.text = .ok p.signature
  count : p.signature.count = 1
  level : p.signature.level = 0
  item : ∃ q, p.signature.portions.toList = [q] ∧ p.signature.excerpts.toList = [q.excerpt] ∧
    q.excerpt = ⟨p.text, 0, p.code, true⟩ ∧
    ∀ depth, TypeTree.preorderAll depth q.children.forest =
      TypeTree.preorderAll depth p.children.forest
  /-- Going through everything in it comes to the portion first, and then to all that was below it. -/
  walk : ∀ depth, TypeTree.preorderAll depth p.signature.excerpts.forest =
    (depth, ⟨p.text, 0, p.code, true⟩) :: TypeTree.preorderAll (depth + 1) p.children.forest

/-- What is in a portion depends on its text and its code only. -/
theorem children_congr {q : Portion} (ht : q.text = p.text) (hc : q.code = p.code) :
    q.children = p.children := by
  rw [children, children, ht, hc]

/-- A portion of a text of types is one of these types. -/
theorem exists_type (hs : s.text = Ty.renderAll ts) (h : Ty.Fit .top ts)
    (hp : p ∈ s.portions.toList) : ∃ t ∈ ts, p.text = t.render ∧ p.code = t.code := by
  have hcut : p.excerpt ∈ Excerpts.cut 0 (ts.map .type) := by
    rw [← Signature.toList_excerpts hs h, ← Signature.map_excerpt_portions (Signature.sound_of_fit hs h)]
    exact List.mem_map_of_mem hp
  obtain ⟨e, he, htext, hcode⟩ := Excerpts.exists_of_mem_cut hcut
  obtain ⟨t, ht, rfl⟩ := List.mem_map.mp he
  exact ⟨t, ht, htext, hcode⟩

theorem alone_of_mem (hs : check limits s.text = .ok ()) (hp : p ∈ s.portions.toList) :
    p.Alone limits := by
  obtain ⟨-, ts, hts, hfit⟩ := check_ok_iff_fit.mp hs
  obtain ⟨t, ht, htext, hcode⟩ := exists_type hts hfit.top hp
  have hsound : p.Sound :=
    (Portions.sound_portions (Signature.sound_of_fit hts hfit)).drain.2 p hp
  have hsignature : p.signature = t.signature := congrArg Signature.ofChecked htext
  have hone := hfit.of_mem ht
  have hcheck : check limits p.signature.text = .ok () := by
    rw [hsignature]
    rw [hts] at hs
    exact Ty.check_of_mem hs ht
  have hitem : (Element.type t).item = ⟨p.text, 0, p.code, true⟩ := by
    rw [htext, hcode]
    rfl
  obtain ⟨hexcerpts, hportions⟩ := Signature.sole_of_render (s := p.signature) htext hone.top
  rw [hitem] at hexcerpts hportions
  refine ⟨?_, hcheck, Signature.within_ok_iff.mpr ⟨hcheck, rfl⟩, ?_, rfl, ?_, ?_⟩
  · obtain ⟨u, hslice, hu, -⟩ := hsound.slice
    exact hslice.trans (congrArg some hu.symm)
  · rw [hsignature]
    exact Ty.count_signature hone
  · obtain ⟨q, hq, hexcerpt⟩ := List.map_eq_singleton_iff.mp hportions
    refine ⟨q, hq, by rw [hexcerpts, hexcerpt], hexcerpt, ?_⟩
    intro depth
    rw [children_congr (congrArg Excerpt.text hexcerpt) (congrArg Excerpt.code hexcerpt)]
  · intro depth
    rw [Excerpts.forest, hexcerpts, List.map_singleton, Excerpt.tree_eq, TypeTree.preorderAll,
      TypeTree.preorder, TypeTree.preorderAll, List.append_nil]
    rfl

end Portion

/-- **Every type of an accepted text is alone what it is in that text.** Under limits that accept the
text of a signature, let a type be cut out of it and made a signature of its own, without any check.
Its text is accepted under the same limits, it is what checking would have given, it holds that one
type at offset 0 and has level 0, and all types below have the same texts, codes, offsets and depths. -/
theorem portion_alone (limits : Limits) (s : Signature) (h : check limits s.text = .ok ()) :
    ∀ p ∈ s.portions.toList, p.Alone limits := by
  intro p hp
  exact Portion.alone_of_mem h hp

/-- The type `a{s(iv)}` of `ia{s(iv)}` is accepted alone where no more than 9 bytes are, and no more
than two containers one in the other. -/
theorem portion_alone_dict :
    let limits : Limits := ⟨⟨2, 1⟩, some 9⟩
    let s : Signature := ⟨[0x69, 0x61, 0x7b, 0x73, 0x28, 0x69, 0x76, 0x29, 0x7d], 4⟩
    check limits s.text = .ok () ∧ ∃ p ∈ s.portions.toList,
      p.excerpt = ⟨[0x61, 0x7b, 0x73, 0x28, 0x69, 0x76, 0x29, 0x7d], 1, .array, true⟩ ∧
        p.Alone limits := by
  intro limits s
  let ts : List Ty := [.basic .int32, .dict .string (.struct (.basic .int32) [.variant])]
  have hfit : Ty.Fit .top ts := by decide
  have hcheck : check limits (Ty.renderAll ts) = .ok () :=
    check_renderAll_iff.mpr ⟨by decide, by decide⟩
  have htext : s.text = Ty.renderAll ts := rfl
  have hlist : s.portions.toList.map Portion.excerpt = Excerpts.cut 0 (ts.map .type) := by
    rw [Signature.map_excerpt_portions (Signature.sound_of_fit htext hfit),
      Signature.toList_excerpts htext hfit]
  have hmem : (⟨[0x61, 0x7b, 0x73, 0x28, 0x69, 0x76, 0x29, 0x7d], 1, .array, true⟩ : Excerpt) ∈
      s.portions.toList.map Portion.excerpt := by
    rw [hlist]
    exact List.mem_cons_of_mem _ List.mem_cons_self
  obtain ⟨p, hp, hexcerpt⟩ := List.mem_map.mp hmem
  exact ⟨hcheck, p, hp, hexcerpt, portion_alone limits s hcheck p hp⟩

end DBusTypes
