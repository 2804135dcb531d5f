import DBusTypes.Proofs.Results
import DBusTypes.Proofs.Stem

/-!
# One byte

What a byte does to a state that stands for stems: which bytes are taken, and what is reached then.

* `Stem.feed_array`, `Stem.feed_struct`, … — when each sort of byte is taken
* `Stem.feed_ok` — **a byte that is taken is appended to what has been read**
-/

namespace DBusTypes

/-- The kind of a type that is basic, or is not. -/
def Kind.ofType (basic : Bool) : Kind := if basic then .basic else .other

namespace Stem

variable {limit : Depth} {scope : Scope} {base : Nat} {gs : List Stem} {s' : Nest}

theorem room_zero (hs : Sound limit scope gs) : Room limit gs 0 0 := by
  cases gs with
  | nil => exact ⟨Nat.zero_le _, Nat.zero_le _⟩
  | cons g outer =>
    obtain ⟨-, ⟨h1, h2⟩, -⟩ := hs
    exact ⟨by omega, by omega⟩

/-- No depth within a limit is too great to be counted. -/
theorem toNat_depth (hs : Sound limit scope gs) :
    (depth gs).containers.toNat = openContainers gs ∧ (depth gs).entries.toNat = openEntries gs := by
  obtain ⟨h1, h2⟩ := room_zero hs
  exact ⟨UInt32.toNat_ofNat_of_lt' (Nat.lt_of_le_of_lt h1 limit.containers.toNat_lt),
    UInt32.toNat_ofNat_of_lt' (Nat.lt_of_le_of_lt h2 limit.entries.toNat_lt)⟩

/-! ## What the parts of a step do -/

theorem fits_nest {offset : Nat} {basic : Bool} :
    (nest base gs).fits offset basic = .ok () ↔ Takes scope gs (.ofType basic) := by
  cases gs with
  | nil => cases basic <;> simp [Nest.fits, nest, frames, Takes, Kind.ofType]
  | cons g outer =>
    cases g <;> cases basic <;>
      simp [Nest.fits, nest, frames, Takes, Kind.ofType, container, held]

theorem allowsEntry_nest : (nest base gs).allowsEntry scope = true ↔ Takes scope gs .entry := by
  cases gs with
  | nil => simp [Nest.allowsEntry, nest, frames, Takes]
  | cons g outer => cases g <;> simp [Nest.allowsEntry, nest, frames, Takes, container]

/-- A counter that has come to its limit leaves no room for one more. -/
theorem le_counter_iff {limit counter : UInt32} {n : Nat} (h : counter.toNat = n) :
    limit ≤ counter ↔ ¬ n + 1 ≤ limit.toNat := by
  rw [UInt32.le_iff_toNat_le, h]
  omega

/-- An array or struct is opened where there is room for one more. -/
theorem enter_nest {g : Stem} (hs : Sound limit scope gs) (hg : g.container ≠ .dictEntry)
    (h0 : g.held = 0) :
    (nest base gs).enter limit g.container (base + (renderAll gs).length) = .ok s' ↔
      Room limit gs 1 0 ∧ s' = nest base (g :: gs) := by
  have hd : (nest base gs).depth.containers.toNat = openContainers gs := (toNat_depth hs).1
  have hr := (room_zero hs).2
  have hn := openContainers_container gs hg
  have heq : nest base (g :: gs) = ⟨⟨g.container, base + (renderAll gs).length, 0⟩ ::
      (nest base gs).opened,
      { (nest base gs).depth with containers := (nest base gs).depth.containers + 1 }⟩ := by
    simp [nest, frames, depth, hn, h0, UInt32.ofNat_add]
  unfold Nest.enter
  rw [heq, Room]
  split
  · next hle =>
    rw [le_counter_iff hd] at hle
    exact ⟨fun h => by simp at h, fun h => absurd h.1.1 hle⟩
  · next hle =>
    rw [le_counter_iff hd, Decidable.not_not] at hle
    rw [Except.ok.injEq]
    exact ⟨fun h => ⟨⟨hle, hr⟩, h.symm⟩, fun h => h.2.symm⟩

/-- A dict-entry is opened where there is room for one more. -/
theorem enterEntry_nest (hs : Sound limit scope gs) :
    (nest base gs).enterEntry limit (base + (renderAll gs).length) = .ok s' ↔
      Room limit gs 0 1 ∧ s' = nest base (key :: gs) := by
  have hd : (nest base gs).depth.entries.toNat = openEntries gs := (toNat_depth hs).2
  have hr := (room_zero hs).1
  have hn := openContainers_entry (g := key) gs rfl
  have heq : nest base (key :: gs) = ⟨⟨.dictEntry, base + (renderAll gs).length, 0⟩ ::
      (nest base gs).opened,
      { (nest base gs).depth with entries := (nest base gs).depth.entries + 1 }⟩ := by
    simp [nest, frames, depth, hn, container, held, UInt32.ofNat_add]
  unfold Nest.enterEntry
  rw [heq, Room]
  split
  · next hle =>
    rw [le_counter_iff hd] at hle
    exact ⟨fun h => by simp at h, fun h => absurd h.1.2 hle⟩
  · next hle =>
    rw [le_counter_iff hd, Decidable.not_not] at hle
    rw [Except.ok.injEq]
    exact ⟨fun h => ⟨⟨hr, hle⟩, h.symm⟩, fun h => h.2.symm⟩

/-- A struct is closed once it has a field. -/
theorem closeStruct_nest {bracket : UInt8} {offset : Nat} (hs : Sound limit scope gs) :
    (nest base gs).closeStruct bracket offset = .ok s' ↔
      ∃ t ts outer, gs = struct (t :: ts) :: outer ∧
        s' = (fill outer (.type (.struct t ts))).nest base := by
  cases gs with
  | nil => simp [Nest.closeStruct, nest, frames]
  | cons g outer =>
    cases g with
    | struct ts =>
      cases ts with
      | nil => simp [Nest.closeStruct, nest, frames, container, held]
      | cons t ts =>
        have hn := openContainers_container (g := struct (t :: ts)) outer (by simp [container])
        have hf : Nest.settle (frames base outer) (depth outer) =
            (fill outer (.type (.struct t ts))).nest base := settle_nest base hs.2.2 hs.1
        simp only [Nest.closeStruct, nest, frames, container, held, depth, hn, ofNat_succ_sub_one]
        rw [if_neg (by simp), ← depth, hf, Except.ok.injEq]
        constructor
        · rintro rfl
          exact ⟨t, ts, outer, rfl, rfl⟩
        · rintro ⟨_, _, _, h, rfl⟩
          cases h
          rfl
    | array => simp [Nest.closeStruct, nest, frames, container]
    | key => simp [Nest.closeStruct, nest, frames, container]
    | value k => simp [Nest.closeStruct, nest, frames, container]
    | full k v => simp [Nest.closeStruct, nest, frames, container]

/-- A dict-entry is closed once it has a key and a value. -/
theorem closeEntry_nest {bracket : UInt8} {offset : Nat} (hs : Sound limit scope gs) :
    (nest base gs).closeEntry bracket offset = .ok s' ↔
      ∃ k v outer, gs = full k v :: outer ∧ s' = (fill outer (.entry k v)).nest base := by
  cases gs with
  | nil => simp [Nest.closeEntry, nest, frames]
  | cons g outer =>
    cases g with
    | full k v =>
      have hn := openContainers_entry (g := full k v) outer rfl
      have hf : Nest.settle (frames base outer) (depth outer) =
          (fill outer (.entry k v)).nest base := settle_nest base hs.2.2 hs.1
      simp only [Nest.closeEntry, nest, frames, container, held, depth, hn, ofNat_succ_sub_one]
      rw [if_neg (by simp), if_neg (by simp), ← depth, hf, Except.ok.injEq]
      constructor
      · rintro rfl
        exact ⟨k, v, outer, rfl, rfl⟩
      · rintro ⟨_, _, _, h, rfl⟩
        cases h
        rfl
    | array => simp [Nest.closeEntry, nest, frames, container]
    | struct ts => simp [Nest.closeEntry, nest, frames, container]
    | key => simp [Nest.closeEntry, nest, frames, container, held]
    | value k => simp [Nest.closeEntry, nest, frames, container, held]

/-! ## Which bytes are taken -/

section

variable (hs : Sound limit scope gs) {offset : Nat} (ho : offset = base + (renderAll gs).length)
include hs ho

/-- When an array may start. -/
theorem feed_array : (nest base gs).feed limit scope offset Code.array.byte = .ok s' ↔
    Takes scope gs .other ∧ Room limit gs 1 0 ∧ s' = nest base (array :: gs) := by
  rw [Nest.feed, Code.ofByte?_byte, ho]
  exact seq_eq_ok.trans (and_congr fits_nest (enter_nest (g := array) hs (by decide) rfl))

/-- When a struct may start. -/
theorem feed_struct : (nest base gs).feed limit scope offset Code.struct.byte = .ok s' ↔
    Takes scope gs .other ∧ Room limit gs 1 0 ∧ s' = nest base (struct [] :: gs) := by
  rw [Nest.feed, Code.ofByte?_byte, ho]
  exact seq_eq_ok.trans (and_congr fits_nest (enter_nest (g := struct []) hs (by decide) rfl))

/-- When a dict-entry may start. -/
theorem feed_entry : (nest base gs).feed limit scope offset Code.dictEntry.byte = .ok s' ↔
    Takes scope gs .entry ∧ Room limit gs 0 1 ∧ s' = nest base (key :: gs) := by
  rw [Nest.feed, Code.ofByte?_byte, ho]
  simp only
  split
  · next ha => rw [enterEntry_nest hs, and_iff_right (allowsEntry_nest.mp ha)]
  · next ha =>
    constructor
    · intro h
      simp at h
    · intro h
      exact absurd (allowsEntry_nest.mpr h.1) ha

omit ho in
/-- What is reached where a type is whole with one byte. -/
theorem settle_eq_ok {e : Element} (h : Takes scope gs e.kind) :
    (pure (Nest.settle (nest base gs).opened (nest base gs).depth) : Except Fault Nest) = .ok s' ↔
      s' = (fill gs e).nest base := by
  have hf : Nest.settle (nest base gs).opened (nest base gs).depth = (fill gs e).nest base :=
    settle_nest base hs h
  rw [hf]
  exact ⟨fun h => (Except.ok.inj h).symm, fun h => congrArg Except.ok h.symm⟩

omit ho in
/-- When a basic type may stand, and what is reached then. -/
theorem feed_basic (k : Basic) :
    (nest base gs).feed limit scope offset (Code.basic k).byte = .ok s' ↔
      Takes scope gs .basic ∧ s' = (fill gs (.type (.basic k))).nest base := by
  rw [Nest.feed, Code.ofByte?_byte]
  refine seq_eq_ok.trans ((and_congr_left fun _ => fits_nest).trans (and_congr_right fun h => ?_))
  exact settle_eq_ok (e := .type (.basic k)) hs h

omit ho in
/-- When a variant may stand, and what is reached then. -/
theorem feed_variant : (nest base gs).feed limit scope offset Code.variant.byte = .ok s' ↔
    Takes scope gs .other ∧ s' = (fill gs (.type .variant)).nest base := by
  rw [Nest.feed, Code.ofByte?_byte]
  refine seq_eq_ok.trans ((and_congr_left fun _ => fits_nest).trans (and_congr_right fun h => ?_))
  exact settle_eq_ok (e := .type .variant) hs h

omit ho in
/-- When a struct may end, and what is reached then. -/
theorem feed_structEnd : (nest base gs).feed limit scope offset structEnd = .ok s' ↔
    ∃ t ts outer, gs = struct (t :: ts) :: outer ∧
      s' = (fill outer (.type (.struct t ts))).nest base := by
  rw [Nest.feed, Code.ofByte?_structEnd]
  exact closeStruct_nest hs

omit ho in
/-- When a dict-entry may end, and what is reached then. -/
theorem feed_entryEnd : (nest base gs).feed limit scope offset entryEnd = .ok s' ↔
    ∃ k v outer, gs = full k v :: outer ∧ s' = (fill outer (.entry k v)).nest base := by
  rw [Nest.feed, Code.ofByte?_entryEnd]
  exact closeEntry_nest hs

/-- **A byte that is taken is appended to what has been read.** -/
theorem feed_ok {b : UInt8} (h : (nest base gs).feed limit scope offset b = .ok s') :
    ∃ r : Reached, r.Sound limit scope ∧ r.render = renderAll gs ++ [b] ∧ s' = r.nest base := by
  cases hb : Code.ofByte? b with
  | some c =>
    obtain rfl := Code.byte_of_ofByte? hb
    cases c with
    | basic k =>
      obtain ⟨ht, rfl⟩ := (feed_basic hs k).mp h
      exact ⟨_, sound_fill (e := .type (.basic k)) hs ht (room_zero hs),
        render_fill (e := .type (.basic k)) hs ht, rfl⟩
    | variant =>
      obtain ⟨ht, rfl⟩ := (feed_variant hs).mp h
      exact ⟨_, sound_fill (e := .type .variant) hs ht (room_zero hs),
        render_fill (e := .type .variant) hs ht, rfl⟩
    | array =>
      obtain ⟨ht, hr, rfl⟩ := (feed_array hs ho).mp h
      exact ⟨.inside (array :: gs), ⟨by simp, ht, (room_container (by decide)).mpr hr, hs⟩, rfl, rfl⟩
    | struct =>
      obtain ⟨ht, hr, rfl⟩ := (feed_struct hs ho).mp h
      exact ⟨.inside (struct [] :: gs), ⟨by simp, ht, (room_container (by decide)).mpr hr, hs⟩, rfl,
        rfl⟩
    | dictEntry =>
      obtain ⟨ht, hr, rfl⟩ := (feed_entry hs ho).mp h
      exact ⟨.inside (key :: gs), ⟨by simp, ht, (room_entry rfl).mpr hr, hs⟩, rfl, rfl⟩
  | none =>
    by_cases h1 : b = structEnd
    · subst h1
      obtain ⟨t, ts, outer, rfl, rfl⟩ := (feed_structEnd hs).mp h
      obtain ⟨hk, hr, hout⟩ := hs
      refine ⟨_, sound_fill (e := .type (.struct t ts)) hout hk ?_, ?_, rfl⟩
      · rw [Element.containers, Element.entries, Ty.containers_struct, Ty.entries_struct]
        exact (room_container (by simp [container])).mp hr
      · rw [render_fill (e := .type (.struct t ts)) hout hk]
        simp [renderAll, render, Element.render, Ty.render_struct]
    · by_cases h2 : b = entryEnd
      · subst h2
        obtain ⟨k, v, outer, rfl, rfl⟩ := (feed_entryEnd hs).mp h
        obtain ⟨hk, hr, hout⟩ := hs
        refine ⟨_, sound_fill (e := .entry k v) hout hk ?_, ?_, rfl⟩
        · exact (room_entry rfl).mp hr
        · rw [render_fill (e := .entry k v) hout hk]
          simp [renderAll, render, Element.render]
      · rw [Nest.feed, hb] at h
        simp [h1, h2] at h

end

end Stem

end DBusTypes
