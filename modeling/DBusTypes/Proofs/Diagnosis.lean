import DBusTypes.Proofs.Openings

/-!
# What a rejection says

A rejection names a cause and an offset, and each cause says something about the text: what byte is
there, which one stands in front of it, what is open at that point and what that holds. All of it is
told here of the text and the grammar alone, by `Open` and `Innermost`.

## How it is shown

1. What is known of the innermost container is what a byte is refused for, and the bytes in front say
   the same (`Progress.follows_of_opened`, `Progress.opened_of_follows`).
2. Each part of a step that refuses a byte does so for a cause that is true
   (`Progress.trueOf_fits`, `Progress.trueOf_enter`, …).

The main statement is `rejection_trueOf`.
-/

namespace DBusTypes

/-! ## What each cause says -/

/-- Whether the byte in front of offset `o` is `c`. -/
def Follows (b : Bytes) (o : Nat) (c : UInt8) : Prop := ∃ q, o = q + 1 ∧ b[q]? = some c

/-- Whether nothing is open at the end of some bytes, or a container of sort `x` is innermost. -/
def NoneOrInnermost (u : Bytes) (x : Container) : Prop :=
  (∀ y q, ¬ Open u y q) ∨ ∃ q, Innermost u x q

namespace Nesting

/-- Which containers a depth counts. -/
def counts : Nesting → Container → Bool
  | .arrayOrStruct, x => x != .dictEntry
  | .dictEntry, x => x == .dictEntry

/-- The limit of a depth. -/
def limit : Nesting → Depth → UInt32
  | .arrayOrStruct, d => d.containers
  | .dictEntry, d => d.entries

end Nesting

/-- Whether what a fault says is true of a text. -/
def Fault.TrueOf (limit : Depth) (b : Bytes) : Fault → Prop
  | ⟨o, .unknownCode c⟩ => b[o]? = some c ∧ Code.ofByte? c = none ∧ c ≠ structEnd ∧ c ≠ entryEnd
  | ⟨o, .emptyStruct⟩ => b[o]? = some structEnd ∧ Follows b o Code.struct.byte
  | ⟨o, .entryOutsideArray⟩ => b[o]? = some Code.dictEntry.byte ∧ ¬ Follows b o Code.array.byte
  | ⟨o, .keyNotBasic⟩ => Follows b o Code.dictEntry.byte ∧
      ∃ c ∈ [Code.variant.byte, Code.array.byte, Code.struct.byte, entryEnd], b[o]? = some c
  | ⟨o, .entryArity found⟩ => ∃ q, Innermost (b.take o) .dictEntry q ∧
      ((found = 1 ∧ b[o]? = some entryEnd ∧ HoldsTypes (b.take o) q 1) ∨
        (found = 3 ∧ (∃ c : Code, c ≠ .dictEntry ∧ b[o]? = some c.byte) ∧
          HoldsTypes (b.take o) q 2))
  | ⟨o, .unterminated⟩ => (∃ x, x ≠ .array ∧ b[o]? = some x.code.byte ∧ Innermost b x o) ∧
      ¬ Follows b b.length Code.array.byte
  | ⟨o, .unbalanced bracket⟩ => b[o]? = some bracket ∧ ¬ Follows b o Code.array.byte ∧
      ((bracket = structEnd ∧ NoneOrInnermost (b.take o) .dictEntry) ∨
        (bracket = entryEnd ∧ NoneOrInnermost (b.take o) .struct))
  | ⟨o, .tooDeep nesting l⟩ => l = nesting.limit limit ∧
      (∃ x, nesting.counts x = true ∧ b[o]? = some x.code.byte) ∧
      {q | ∃ x, nesting.counts x = true ∧ Open (b.take o) x q}.ncard = l.toNat
  | ⟨o, .danglingArray⟩ => b[o]? = some Code.array.byte ∧
      (o + 1 = b.length ∨ ∃ c ∈ [structEnd, entryEnd], b[o + 1]? = some c)

/-- Whether what a rejection says is true of a text. -/
def Rejection.TrueOf (limits : Limits) (b : Bytes) : Rejection → Prop
  | .fault f => f.TrueOf limits.depth b
  | .tooLong length limit => limits.length = some limit ∧ length = b.length ∧ limit < b.length

/-! ## The byte in front -/

theorem follows_append {u v : Bytes} {c : UInt8} :
    Follows (u ++ v) u.length c ↔ Follows u u.length c := by
  constructor
  · rintro ⟨q, hq, hc⟩
    rw [List.getElem?_append_left (by omega)] at hc
    exact ⟨q, hq, hc⟩
  · rintro ⟨q, hq, hc⟩
    refine ⟨q, hq, ?_⟩
    rw [List.getElem?_append_left (by omega)]
    exact hc

/-- Bytes that end in the marker of an array leave it open. -/
theorem open_array_of_follows {u : Bytes} {q : Nat} (hq : u.length = q + 1)
    (hc : u[q]? = some Code.array.byte) : Open u .array q := by
  refine ⟨hc, ?_⟩
  intro e he
  have hdrop : u.drop q = [Code.array.byte] := by
    obtain ⟨hlt, hget⟩ := List.getElem?_eq_some_iff.mp hc
    rw [List.drop_eq_getElem_cons hlt, hget, List.drop_eq_nil_of_le (by omega)]
  rw [hdrop] at he
  -- The marker would be all of the element, and an array has an element of its own.
  obtain ⟨r, hr⟩ := e.exists_render
  rw [hr, List.cons_prefix_cons] at he
  obtain ⟨p, rfl⟩ := Element.code_eq_array (Code.byte_inj he.1)
  rw [Element.render, Element.render_arrayOf] at hr
  obtain rfl : p.render = r := (List.cons.inj hr).2
  exact p.render_ne_nil (List.prefix_nil.mp he.2)

/-! ## What is known of the innermost container -/

/-- An array is whole as soon as it has a type, and a dict-entry takes two at most. -/
theorem Stem.held_le (g : Stem) : (g.container = .array → g.held = 0) ∧
    (g.container = .dictEntry → g.held ≤ 2) := by
  cases g <;> simp [container, held]

namespace Progress

variable {limit : Depth} {x : Container} {q n : Nat} {outer : List Opened} (p : Progress limit)

theorem held_le (h : p.nest.opened = ⟨x, q, n⟩ :: outer) :
    (x = .array → n = 0) ∧ (x = .dictEntry → n ≤ 2) := by
  have hmem : ⟨x, q, n⟩ ∈ Stem.frames (Ty.renderAll p.types).length p.stems := by
    show _ ∈ p.nest.opened
    rw [h]
    exact List.mem_cons_self
  obtain ⟨inner, g, outer', -, ho⟩ := Stem.mem_frames.mp hmem
  obtain ⟨rfl, -, rfl⟩ := Opened.mk.inj ho
  exact g.held_le

/-- Where the innermost container holds nothing yet, its code is the byte in front. -/
theorem follows_of_opened (h : p.nest.opened = ⟨x, q, 0⟩ :: outer) :
    p.render.length = q + 1 ∧ p.render[q]? = some x.code.byte := by
  obtain ⟨⟨hopen, -⟩, ts, hdrop, hts⟩ := p.innermost h
  rw [List.length_eq_zero_iff.mp hts, Ty.renderAll, List.drop_eq_nil_iff] at hdrop
  have hlt := hopen.lt_length
  exact ⟨by omega, hopen.1⟩

/-- An array is innermost only right behind its marker. -/
theorem follows_of_array (h : p.nest.opened = ⟨.array, q, n⟩ :: outer) :
    p.render.length = q + 1 ∧ p.render[q]? = some Code.array.byte := by
  obtain rfl := (p.held_le h).1 rfl
  exact p.follows_of_opened h

/-- Right behind its marker an array is innermost. -/
theorem opened_of_follows (h : Follows p.render p.render.length Code.array.byte) :
    ∃ q n outer, p.nest.opened = ⟨.array, q, n⟩ :: outer := by
  obtain ⟨q, hq, hc⟩ := h
  obtain ⟨n, hn⟩ := p.open_iff.mp (open_array_of_follows hq hc)
  cases hopened : p.nest.opened with
  | nil =>
    rw [hopened] at hn
    exact absurd hn List.not_mem_nil
  | cons o outer =>
    have hpair := p.pairwise_opened
    rw [hopened] at hn hpair
    rcases List.mem_cons.mp hn with rfl | hn
    · exact ⟨q, n, outer, rfl⟩
    · -- Further in, there is no byte left for a container to start at.
      have hlt : q < o.start := (List.pairwise_cons.mp hpair).1 _ hn
      have hend : o.start < p.render.length := by
        rw [p.length_render]
        refine Stem.start_lt_of_mem_frames ?_
        show o ∈ p.nest.opened
        rw [hopened]
        exact List.mem_cons_self
      omega

/-- Where something other than an array is innermost, the byte in front is not the marker of one. -/
theorem not_follows (h : ∀ q n outer, p.nest.opened ≠ ⟨.array, q, n⟩ :: outer) :
    ¬ Follows p.render p.render.length Code.array.byte := by
  intro hf
  obtain ⟨q, n, outer, ho⟩ := p.opened_of_follows hf
  exact h q n outer ho

/-! ## Why a byte is refused -/

variable {f : Fault} (v : Bytes)

theorem getElem?_behind (c : UInt8) : (p.render ++ c :: v)[p.render.length]? = some c := by
  rw [List.getElem?_append_right (Nat.le_refl _), Nat.sub_self]
  rfl

/-- A type does not fit in a dict-entry as a key that is not basic, or as a third type. -/
theorem trueOf_fits {c : Code} (hc : c ≠ .dictEntry)
    (h : p.nest.fits p.render.length c.isBasic = .error f) :
    f.TrueOf limit (p.render ++ c.byte :: v) := by
  unfold Nest.fits at h
  split at h
  · next q n outer ho =>
    split at h
    · next hkey =>
      obtain ⟨rfl, hbasic⟩ := hkey
      obtain rfl := Except.error.inj h
      obtain ⟨hq, hd⟩ := p.follows_of_opened ho
      refine ⟨follows_append.mpr ⟨q, hq, hd⟩, c.byte, ?_, p.getElem?_behind v c.byte⟩
      cases c with
      | basic k => simp [Code.isBasic] at hbasic
      | variant | array | struct => simp
      | dictEntry => exact absurd rfl hc
    · split at h
      · next hn =>
        obtain rfl := Except.error.inj h
        obtain ⟨hinner, hholds⟩ := p.innermost ho
        obtain rfl : n = 2 := Nat.le_antisymm ((p.held_le ho).2 rfl) hn
        refine ⟨q, ?_, Or.inr ⟨rfl, ⟨c, hc, p.getElem?_behind v c.byte⟩, ?_⟩⟩
        · rw [List.take_left]
          exact hinner
        · rw [List.take_left]
          exact hholds
      · simp at h
  · simp at h

/-- A depth is reported that is used up. -/
theorem trueOf_tooDeep (nesting : Nesting) (hx : nesting.counts x = true)
    (hfull : p.stems.countP (nesting.counts ·.container) = (nesting.limit limit).toNat) :
    Fault.TrueOf limit (p.render ++ x.code.byte :: v)
      ⟨p.render.length, .tooDeep nesting (nesting.limit limit)⟩ := by
  refine ⟨rfl, ⟨x, hx, p.getElem?_behind v _⟩, ?_⟩
  rw [List.take_left, p.ncard_open]
  exact hfull

theorem trueOf_enter (hx : x ≠ .dictEntry)
    (h : p.nest.enter limit x p.render.length = .error f) :
    f.TrueOf limit (p.render ++ x.code.byte :: v) := by
  have hd : p.nest.depth.containers.toNat = Stem.openContainers p.stems :=
    (Stem.toNat_depth p.sound).1
  have hroom := (Stem.room_zero p.sound).1
  unfold Nest.enter at h
  split at h
  · next hle =>
    obtain rfl := Except.error.inj h
    rw [UInt32.le_iff_toNat_le, hd] at hle
    refine p.trueOf_tooDeep v .arrayOrStruct (by simpa [Nesting.counts] using hx) ?_
    exact Nat.le_antisymm hroom hle
  · simp at h

theorem trueOf_enterEntry (h : p.nest.enterEntry limit p.render.length = .error f) :
    f.TrueOf limit (p.render ++ Code.dictEntry.byte :: v) := by
  have hd : p.nest.depth.entries.toNat = Stem.openEntries p.stems :=
    (Stem.toNat_depth p.sound).2
  have hroom := (Stem.room_zero p.sound).2
  unfold Nest.enterEntry at h
  split at h
  · next hle =>
    obtain rfl := Except.error.inj h
    rw [UInt32.le_iff_toNat_le, hd] at hle
    exact p.trueOf_tooDeep v (x := .dictEntry) .dictEntry rfl (Nat.le_antisymm hroom hle)
  · simp at h

/-- An array that a bracket follows has no element. -/
theorem trueOf_dangling {bracket : UInt8} (hb : bracket ∈ [structEnd, entryEnd])
    (h : p.nest.opened = ⟨.array, q, n⟩ :: outer) :
    Fault.TrueOf limit (p.render ++ bracket :: v) ⟨q, .danglingArray⟩ := by
  obtain ⟨hq, hc⟩ := p.follows_of_array h
  refine ⟨?_, Or.inr ⟨bracket, hb, ?_⟩⟩
  · rw [List.getElem?_append_left (by omega)]
    exact hc
  · rw [← hq]
    exact p.getElem?_behind v bracket

/-- A bracket is unbalanced where nothing is open, or a container that has the other bracket. -/
theorem trueOf_unbalanced {bracket : UInt8}
    (hb : (bracket = structEnd ∧ x = .dictEntry) ∨ (bracket = entryEnd ∧ x = .struct))
    (h : p.nest.opened = [] ∨ ∃ q n outer, p.nest.opened = ⟨x, q, n⟩ :: outer) :
    Fault.TrueOf limit (p.render ++ bracket :: v) ⟨p.render.length, .unbalanced bracket⟩ := by
  have hx : x ≠ .array := by
    rcases hb with ⟨-, rfl⟩ | ⟨-, rfl⟩ <;> simp
  have hnone : NoneOrInnermost p.render x := by
    rcases h with ho | ⟨q, n, outer, ho⟩
    · exact Or.inl (p.not_open ho)
    · exact Or.inr ⟨q, (p.innermost ho).1⟩
  refine ⟨p.getElem?_behind v bracket, ?_, ?_⟩
  · rw [follows_append]
    refine p.not_follows ?_
    rintro q n outer ho
    rcases h with ho' | ⟨q', n', outer', ho'⟩
    · simp [ho] at ho'
    · rw [ho] at ho'
      exact hx (Opened.mk.inj (List.cons.inj ho').1).1.symm
  · rw [List.take_left]
    rcases hb with ⟨rfl, rfl⟩ | ⟨rfl, rfl⟩
    · exact Or.inl ⟨rfl, hnone⟩
    · exact Or.inr ⟨rfl, hnone⟩

theorem trueOf_closeStruct (h : p.nest.closeStruct structEnd p.render.length = .error f) :
    f.TrueOf limit (p.render ++ structEnd :: v) := by
  have hb : structEnd = structEnd ∧ Container.dictEntry = .dictEntry := ⟨rfl, rfl⟩
  unfold Nest.closeStruct at h
  cases ho : p.nest.opened with
  | nil =>
    rw [ho] at h
    obtain rfl := Except.error.inj h
    exact p.trueOf_unbalanced v (Or.inl hb) (Or.inl ho)
  | cons o outer =>
    obtain ⟨x, q, n⟩ := o
    rw [ho] at h
    cases x with
    | array =>
      obtain rfl := Except.error.inj h
      exact p.trueOf_dangling v (by simp) ho
    | struct =>
      simp only at h
      split at h
      · next hn =>
        obtain rfl := hn
        obtain rfl := Except.error.inj h
        obtain ⟨hq, hc⟩ := p.follows_of_opened ho
        exact ⟨p.getElem?_behind v structEnd, follows_append.mpr ⟨q, hq, hc⟩⟩
      · simp at h
    | dictEntry =>
      obtain rfl := Except.error.inj h
      exact p.trueOf_unbalanced v (Or.inl hb) (Or.inr ⟨q, n, outer, ho⟩)

theorem trueOf_closeEntry (h : p.nest.closeEntry entryEnd p.render.length = .error f) :
    f.TrueOf limit (p.render ++ entryEnd :: v) := by
  have hb : entryEnd = entryEnd ∧ Container.struct = .struct := ⟨rfl, rfl⟩
  unfold Nest.closeEntry at h
  cases ho : p.nest.opened with
  | nil =>
    rw [ho] at h
    obtain rfl := Except.error.inj h
    exact p.trueOf_unbalanced v (Or.inr hb) (Or.inl ho)
  | cons o outer =>
    obtain ⟨x, q, n⟩ := o
    rw [ho] at h
    cases x with
    | array =>
      obtain rfl := Except.error.inj h
      exact p.trueOf_dangling v (by simp) ho
    | struct =>
      obtain rfl := Except.error.inj h
      exact p.trueOf_unbalanced v (Or.inr hb) (Or.inr ⟨q, n, outer, ho⟩)
    | dictEntry =>
      simp only at h
      split at h
      · next hn =>
        obtain rfl := hn
        obtain rfl := Except.error.inj h
        obtain ⟨hq, hc⟩ := p.follows_of_opened ho
        exact ⟨follows_append.mpr ⟨q, hq, hc⟩, entryEnd, by simp, p.getElem?_behind v entryEnd⟩
      · next hn =>
        split at h
        · next hn2 =>
          obtain rfl := Except.error.inj h
          obtain ⟨hinner, hholds⟩ := p.innermost ho
          have hle := (p.held_le ho).2 rfl
          obtain rfl : n = 1 := by omega
          refine ⟨q, ?_, Or.inl ⟨rfl, p.getElem?_behind v entryEnd, ?_⟩⟩
          · rw [List.take_left]
            exact hinner
          · rw [List.take_left]
            exact hholds
        · simp at h

/-- **A byte is refused for a cause that is true.** -/
theorem trueOf_feed {b : UInt8} (h : p.nest.feed limit .sequence p.render.length b = .error f) :
    f.TrueOf limit (p.render ++ b :: v) := by
  unfold Nest.feed at h
  cases hb : Code.ofByte? b with
  | some c =>
    obtain rfl := Code.byte_of_ofByte? hb
    rw [hb] at h
    cases c with
    | array =>
      rcases bind_eq_error.mp h with h | ⟨_, -, h⟩
      · exact p.trueOf_fits v (c := .array) (by simp) h
      · exact p.trueOf_enter v (x := .array) (by simp) h
    | struct =>
      rcases bind_eq_error.mp h with h | ⟨_, -, h⟩
      · exact p.trueOf_fits v (c := .struct) (by simp) h
      · exact p.trueOf_enter v (x := .struct) (by simp) h
    | dictEntry =>
      simp only at h
      split at h
      · exact p.trueOf_enterEntry v h
      · next ha =>
        obtain rfl := Except.error.inj h
        refine ⟨p.getElem?_behind v _, ?_⟩
        rw [follows_append]
        refine p.not_follows ?_
        intro q n outer ho
        exact ha (by simp [Nest.allowsEntry, ho])
    | basic k | variant =>
      rcases bind_eq_error.mp h with h | ⟨_, -, h⟩
      · exact p.trueOf_fits v (by simp) h
      · simp [pure, Except.pure] at h
  | none =>
    rw [hb] at h
    simp only at h
    split at h
    · next hs =>
      obtain rfl := hs
      exact p.trueOf_closeStruct v h
    · next hs =>
      split at h
      · next he =>
        obtain rfl := he
        exact p.trueOf_closeEntry v h
      · next he =>
        obtain rfl := Except.error.inj h
        exact ⟨p.getElem?_behind v b, hb, hs, he⟩

/-- **A text that ends too early is refused for a cause that is true.** -/
theorem trueOf_finish (h : p.nest.finish = .error f) : f.TrueOf limit p.render := by
  unfold Nest.finish at h
  split at h
  · simp at h
  · next hopen =>
    obtain rfl := Except.error.inj h
    cases ho : p.nest.opened with
    | nil => simp [ho] at hopen
    | cons o outer =>
      obtain ⟨x, q, n⟩ := o
      obtain ⟨hinner, -⟩ := p.innermost ho
      have hends : x ≠ .array → Fault.TrueOf limit p.render ⟨q, .unterminated⟩ := by
        intro hx
        refine ⟨⟨x, hx, hinner.1.1, hinner⟩, p.not_follows ?_⟩
        intro q' n' outer' ho'
        rw [ho] at ho'
        exact hx (Opened.mk.inj (List.cons.inj ho').1).1
      cases x with
      | array =>
        obtain ⟨hq, hc⟩ := p.follows_of_array ho
        rw [Nest.unfinished, ho]
        exact ⟨hc, Or.inl hq.symm⟩
      | struct | dictEntry =>
        rw [Nest.unfinished, ho]
        exact hends (by simp)

end Progress

/-- **Every rejection is true of its text.** Whatever cause a text is refused for, what it says about
the bytes at its offset, about what is open there and about the limits is so. -/
theorem rejection_trueOf (limits : Limits) (bytes : Bytes) (r : Rejection)
    (h : check limits bytes = .error r) : r.TrueOf limits bytes := by
  rw [check, bind_eq_error] at h
  rcases h with h | ⟨_, -, h⟩
  · unfold checkLength at h
    split at h
    · next limit hlimit =>
      split at h
      · next hlt =>
        obtain rfl := Except.error.inj h
        exact ⟨hlimit, rfl, hlt⟩
      · simp at h
    · simp at h
  · obtain ⟨f, hf, rfl⟩ := mapError_eq_error.mp h
    rw [checkFrom_eq_feedAll] at hf
    rcases bind_eq_error.mp hf with hf | ⟨s, hs, hf⟩
    · obtain ⟨u, b, v, s, rfl, hu, hb⟩ := Nest.feedAll_error hf
      obtain ⟨p, rfl, rfl⟩ := Progress.exists_of_feedAll hu
      rw [Nat.zero_add] at hb
      exact p.trueOf_feed v hb
    · obtain ⟨p, rfl, rfl⟩ := Progress.exists_of_feedAll hs
      exact p.trueOf_finish hf

/-- In `a{s}` the dict-entry at offset 1 has one type, the key, where its bracket comes. -/
theorem rejection_trueOf_lone_key :
    check .standard [0x61, 0x7b, 0x73, 0x7d] = .error (.fault ⟨3, .entryArity 1⟩) ∧
      ∃ q, Innermost [0x61, 0x7b, 0x73] .dictEntry q ∧ HoldsTypes [0x61, 0x7b, 0x73] q 1 := by
  have h : check .standard [0x61, 0x7b, 0x73, 0x7d] = .error (.fault ⟨3, .entryArity 1⟩) := by
    rw [check, checkFrom_eq_feedAll]
    rfl
  refine ⟨h, ?_⟩
  obtain ⟨q, hq, ⟨-, -, hholds⟩ | ⟨hfound, -⟩⟩ := rejection_trueOf _ _ _ h
  · exact ⟨q, hq, hholds⟩
  · simp at hfound

end DBusTypes
