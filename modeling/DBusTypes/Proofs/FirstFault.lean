import DBusTypes.Proofs.Progress

/-!
# The first fault

A fault is found as soon as it can be told: everything before it is the beginning of some signature,
and with the byte it is found at it no longer is.

## How it is shown

1. A byte that is not taken is where its fault is found, whatever offset the fault is reported at
   (`Stem.found_of_feed`).
2. What has been read without a fault can always be completed, and without opening anything more
   (`Stem.exists_completion`, `Progress.exists_completion`).
3. How bytes are taken does not depend on those that follow (`Nest.feedAll_append`).

The main statement is `first_fault`.
-/

namespace DBusTypes

/-! ## Where a fault is found -/

/-- How many bytes of a text with `length` bytes have been taken when a fault is found. Where
something never came, that is more than the offset the fault is reported at. -/
def Fault.found (length : Nat) (f : Fault) : Nat :=
  match f.cause with
  | .unterminated => length
  | .danglingArray => f.offset + 1
  | _ => f.offset

/-- The same for a text that is too long, where it is the offset of the first byte past the limit. -/
def Rejection.found (length : Nat) : Rejection → Nat
  | .fault f => f.found length
  | .tooLong _ limit => limit

namespace Nest

variable {limit : Depth} {s : Nest} {offset : Nat} {f : Fault}

theorem found_of_fits {basic : Bool} (length : Nat) (h : s.fits offset basic = .error f) :
    f.found length = offset := by
  unfold fits at h
  split at h
  · split at h
    · rw [← Except.error.inj h]
      rfl
    · split at h
      · rw [← Except.error.inj h]
        rfl
      · simp at h
  · simp at h

theorem found_of_enter {container : Container} (length : Nat)
    (h : s.enter limit container offset = .error f) : f.found length = offset := by
  unfold enter at h
  split at h
  · rw [← Except.error.inj h]
    rfl
  · simp at h

theorem found_of_enterEntry (length : Nat) (h : s.enterEntry limit offset = .error f) :
    f.found length = offset := by
  unfold enterEntry at h
  split at h
  · rw [← Except.error.inj h]
    rfl
  · simp at h

end Nest

namespace Stem

variable {limit : Depth} {scope : Scope} {base offset : Nat} {gs : List Stem} {f : Fault}

/-- The marker of an array that has no element is the byte before the one that shows it. -/
theorem found_of_danglingArray {outer : List Stem} (length : Nat)
    (ho : offset = base + (renderAll (array :: outer)).length) :
    Fault.found length ⟨base + (renderAll outer).length, .danglingArray⟩ = offset := by
  rw [ho, length_renderAll_cons]
  rfl

theorem found_of_closeStruct {bracket : UInt8} (length : Nat)
    (ho : offset = base + (renderAll gs).length)
    (h : (nest base gs).closeStruct bracket offset = .error f) : f.found length = offset := by
  cases gs with
  | nil =>
    rw [← Except.error.inj h]
    rfl
  | cons g outer =>
    cases g with
    | array =>
      rw [← Except.error.inj h]
      exact found_of_danglingArray length ho
    | struct ts =>
      simp only [Nest.closeStruct, nest, frames, container] at h
      split at h
      · rw [← Except.error.inj h]
        rfl
      · simp at h
    | key | value k | full k v =>
      rw [← Except.error.inj h]
      rfl

theorem found_of_closeEntry {bracket : UInt8} (length : Nat)
    (ho : offset = base + (renderAll gs).length)
    (h : (nest base gs).closeEntry bracket offset = .error f) : f.found length = offset := by
  cases gs with
  | nil =>
    rw [← Except.error.inj h]
    rfl
  | cons g outer =>
    cases g with
    | array =>
      rw [← Except.error.inj h]
      exact found_of_danglingArray length ho
    | struct ts | key | value k =>
      rw [← Except.error.inj h]
      rfl
    | full k v => simp [Nest.closeEntry, nest, frames, container, held] at h

/-- **A byte that is not taken is where its fault is found.** -/
theorem found_of_feed {b : UInt8} (length : Nat) (ho : offset = base + (renderAll gs).length)
    (h : (nest base gs).feed limit scope offset b = .error f) : f.found length = offset := by
  rw [Nest.feed] at h
  cases hb : Code.ofByte? b with
  | some c =>
    rw [hb] at h
    cases c with
    | array | struct =>
      rcases bind_eq_error.mp h with h | ⟨_, -, h⟩
      · exact Nest.found_of_fits length h
      · exact Nest.found_of_enter length h
    | dictEntry =>
      simp only at h
      split at h
      · exact Nest.found_of_enterEntry length h
      · rw [← Except.error.inj h]
        rfl
    | basic k | variant =>
      rcases bind_eq_error.mp h with h | ⟨_, -, h⟩
      · exact Nest.found_of_fits length h
      · simp [pure, Except.pure] at h
  | none =>
    rw [hb] at h
    simp only at h
    split at h
    · exact found_of_closeStruct length ho h
    · split at h
      · exact found_of_closeEntry length ho h
      · rw [← Except.error.inj h]
        rfl

/-- A text that ends inside a type is at fault at its end. -/
theorem found_unfinished (h : gs ≠ []) :
    (nest base gs).unfinished.found (base + (renderAll gs).length) = base + (renderAll gs).length := by
  obtain ⟨g, outer, rfl⟩ := List.exists_cons_of_ne_nil h
  cases g with
  | array => exact found_of_danglingArray _ rfl
  | struct ts | key | value k | full k v => rfl

/-! ## What can be completed -/

/-- **Whatever may come next can be read, and the rest of the type after it**, with nothing more
opened than what is open already. -/
theorem exists_completion {e : Element} (hs : Sound limit scope gs) (h : Takes scope gs e.kind)
    (hr : Room limit gs e.containers e.entries) :
    ∃ (w : Bytes) (e' : Element), e'.Allowed limit scope ∧
      renderAll gs ++ e.render ++ w = e'.render := by
  induction gs generalizing e with
  | nil => exact ⟨[], e, ⟨h, room_nil.mp hr⟩, List.append_nil _⟩
  | cons g outer ih =>
    obtain ⟨hk, hroom, ho⟩ := hs
    cases g with
    | array =>
      -- The array is whole as soon as its element is.
      have hr' := (room_container (by decide)).mp hr
      rw [← Element.containers_arrayOf, ← Element.entries_arrayOf] at hr'
      obtain ⟨w, e', he', hw⟩ := ih ho (takes_arrayOf ⟨hk, hroom, ho⟩ e) hr'
      refine ⟨w, e', he', ?_⟩
      rw [← hw, Element.render, Element.render_arrayOf]
      simp [renderAll, render]
    | struct ts =>
      -- The struct can be closed, as it has a field now.
      obtain ⟨t, rfl⟩ := Element.kind_ne_entry h
      obtain ⟨u, us, hu⟩ := List.exists_cons_of_ne_nil (show ts ++ [t] ≠ [] by simp)
      have hr' := room_field hroom hr
      rw [hu, ← Ty.containers_struct, ← Ty.entries_struct] at hr'
      obtain ⟨w, e', he', hw⟩ := ih (e := .type (.struct u us)) ho hk hr'
      have htext : (Ty.struct u us).render =
          Code.struct.byte :: (Ty.renderAll ts ++ t.render ++ [structEnd]) := by
        rw [Ty.render_struct, ← hu, Ty.renderAll_append, Ty.renderAll, Ty.renderAll,
          List.append_nil]
      refine ⟨structEnd :: w, e', he', ?_⟩
      rw [← hw]
      simp [renderAll, render, Element.render, htext]
    | key =>
      -- Any value will do, and a basic one opens nothing.
      obtain ⟨k, rfl⟩ := Element.kind_eq_basic h
      obtain ⟨w, e', he', hw⟩ := ih (e := .entry k (.basic .byte)) ho hk ((room_entry rfl).mp hroom)
      refine ⟨(Code.basic .byte).byte :: entryEnd :: w, e', he', ?_⟩
      rw [← hw]
      simp [renderAll, render, Element.render, Ty.render]
    | value k =>
      obtain ⟨t, rfl⟩ := Element.kind_ne_entry h
      obtain ⟨w, e', he', hw⟩ := ih (e := .entry k t) ho hk ((room_entry rfl).mp hr)
      refine ⟨entryEnd :: w, e', he', ?_⟩
      rw [← hw]
      simp [renderAll, render, Element.render]
    | full k v => exact absurd h id

end Stem

/-- The beginning of a type can be completed, and something is missing from it: a dict-entry that has
all it needs is closed, and anything else takes a basic type. -/
theorem Stem.exists_completion_self {limit : Depth} {scope : Scope} {gs : List Stem}
    (hs : Sound limit scope gs) (hne : gs ≠ []) :
    ∃ (w : Bytes) (e : Element), w ≠ [] ∧ e.Allowed limit scope ∧ renderAll gs ++ w = e.render := by
  obtain ⟨g, outer, rfl⟩ := List.exists_cons_of_ne_nil hne
  by_cases hg : Takes scope (g :: outer) .basic
  · obtain ⟨w, e, he, hw⟩ := exists_completion (e := .type (.basic .byte)) hs hg (room_zero hs)
    refine ⟨(Element.type (.basic .byte)).render ++ w, e, by simp [Element.render, Ty.render], he, ?_⟩
    rw [← List.append_assoc, hw]
  · cases g with
    | full k v =>
      obtain ⟨hk, hroom, ho⟩ := hs
      obtain ⟨w, e, he, hw⟩ := exists_completion (e := .entry k v) ho hk ((room_entry rfl).mp hroom)
      refine ⟨entryEnd :: w, e, List.cons_ne_nil _ _, he, ?_⟩
      rw [← hw]
      simp [renderAll, render, Element.render]
    | array | struct ts | key | value k => simp [Takes] at hg

/-- **What has been read without a fault can be completed.** -/
theorem Progress.exists_completion {limit : Depth} (p : Progress limit) :
    ∃ w ts, Ty.Fit limit ts ∧ p.render ++ w = Ty.renderAll ts := by
  by_cases hne : p.stems = []
  · refine ⟨[], p.types, p.fit, ?_⟩
    rw [render, hne, Stem.renderAll, List.append_nil, List.append_nil]
  · obtain ⟨w, e, -, he, hw⟩ := Stem.exists_completion_self p.sound hne
    obtain ⟨t, rfl, ht⟩ := Element.allowed_sequence.mp he
    refine ⟨w, p.types ++ [t], Ty.fit_append.mpr ⟨p.fit, ht⟩, ?_⟩
    rw [render, List.append_assoc, hw, Ty.renderAll_append, Ty.renderAll, Ty.renderAll,
      List.append_nil, Element.render]

/-! ## The first fault -/

section

variable {depth : Depth} {bytes : Bytes}

theorem check_unlimited (depth : Depth) (bytes : Bytes) :
    check ⟨depth, none⟩ bytes =
      ((Nest.feedAll depth .sequence .start 0 bytes).bind Nest.finish).mapError Rejection.fault :=
  congrArg (Except.mapError Rejection.fault) (checkFrom_eq_feedAll (.new depth .sequence) 0 bytes)

/-- Whatever has been taken from the start is how far a text has been read. -/
theorem Progress.exists_of_feedAll {s : Nest}
    (h : Nest.feedAll depth .sequence .start 0 bytes = .ok s) :
    ∃ p : Progress depth, p.render = bytes ∧ s = p.nest :=
  Progress.start.feedAll_ok h

/-- Every part of what has been taken can be continued to a signature. -/
theorem exists_continuation {s : Nest} (h : Nest.feedAll depth .sequence .start 0 bytes = .ok s)
    (n : Nat) : ∃ w, check ⟨depth, none⟩ (bytes.take n ++ w) = .ok () := by
  rw [← List.take_append_drop n bytes, Nest.feedAll_append] at h
  cases hn : Nest.feedAll depth .sequence .start 0 (bytes.take n) with
  | error f => simp [hn] at h
  | ok s' =>
    obtain ⟨p, hp, -⟩ := Progress.exists_of_feedAll hn
    obtain ⟨w, ts, hts, hw⟩ := p.exists_completion
    exact ⟨w, check_ok_iff_fit.mpr ⟨by simp, ts, by rw [← hp, hw], hts⟩⟩

/-- A text whose length is not limited fails at a byte that is not taken, or at its end. -/
theorem check_error {r : Rejection} (h : check ⟨depth, none⟩ bytes = .error r) :
    ∃ f, .fault f = r ∧ (Nest.feedAll depth .sequence .start 0 bytes = .error f ∨
      ∃ s, Nest.feedAll depth .sequence .start 0 bytes = .ok s ∧ s.finish = .error f) := by
  rw [check_unlimited, mapError_eq_error] at h
  obtain ⟨f, hf, rfl⟩ := h
  exact ⟨f, rfl, bind_eq_error.mp hf⟩

/-- All bytes of an accepted text are taken. -/
theorem exists_feedAll_of_check (h : check ⟨depth, none⟩ bytes = .ok ()) :
    ∃ s, Nest.feedAll depth .sequence .start 0 bytes = .ok s := by
  rw [check_unlimited, mapError_eq_ok] at h
  obtain ⟨s, hs, -⟩ := bind_eq_ok.mp h
  exact ⟨s, hs⟩

/-- What is open at the end of a text is found there. -/
theorem Progress.found_of_finish (p : Progress depth) {f : Fault} (h : p.nest.finish = .error f) :
    f.found p.render.length = p.render.length := by
  rw [Nest.finish] at h
  split at h
  · simp at h
  · next hopen =>
    obtain rfl := Except.error.inj h
    rw [p.length_render]
    refine Stem.found_unfinished ?_
    intro hnil
    rw [nest, hnil] at hopen
    exact hopen rfl

end

/-- **The first fault.** Where a text is refused and its length is not limited, every part of it up to
where the fault is found can be continued to a signature, and no text that begins with one byte more
is a signature. -/
theorem first_fault (depth : Depth) (bytes : Bytes) (r : Rejection)
    (h : check ⟨depth, none⟩ bytes = .error r) :
    r.found bytes.length ≤ bytes.length ∧
      (∀ n ≤ r.found bytes.length, ∃ w, check ⟨depth, none⟩ (bytes.take n ++ w) = .ok ()) ∧
      (r.found bytes.length < bytes.length →
        ∀ w, check ⟨depth, none⟩ (bytes.take (r.found bytes.length + 1) ++ w) ≠ .ok ()) := by
  obtain ⟨f, rfl, hf | ⟨s, hs, hf⟩⟩ := check_error h
  · obtain ⟨u, b, v, s, rfl, hu, hb⟩ := Nest.feedAll_error hf
    obtain ⟨p, rfl, rfl⟩ := Progress.exists_of_feedAll hu
    rw [Nat.zero_add] at hb
    have hfound : f.found (p.render ++ b :: v).length = p.render.length :=
      Stem.found_of_feed _ p.length_render hb
    rw [Rejection.found, hfound]
    refine ⟨by simp, ?_, ?_⟩
    · intro n hn
      rw [List.take_append_of_le_length hn]
      exact exists_continuation hu n
    · intro _ w hw
      have htake : (p.render ++ b :: v).take (p.render.length + 1) = p.render ++ [b] := by
        rw [List.take_append, List.take_of_length_le (Nat.le_succ _), Nat.add_sub_cancel_left]
        rfl
      -- Whatever follows, the byte that is not taken has come by then.
      obtain ⟨s', hs'⟩ := exists_feedAll_of_check hw
      rw [htake, List.append_assoc, Nest.feedAll_append, hu] at hs'
      simp only [List.singleton_append, Nest.feedAll, Nat.zero_add, hb] at hs'
      simp at hs'
  · -- All bytes are taken, but something is open at the end.
    obtain ⟨p, rfl, rfl⟩ := Progress.exists_of_feedAll hs
    rw [Rejection.found, p.found_of_finish hf]
    refine ⟨Nat.le_refl _, ?_, ?_⟩
    · intro n _
      exact exists_continuation hs n
    · intro hlt
      exact absurd hlt (Nat.lt_irrefl _)

/-- In `a{vi}` the fault is the key, which is a variant: `a{` is as far as a signature goes. -/
theorem first_fault_variant_key :
    check ⟨⟨32, 32⟩, none⟩ [0x61, 0x7b, 0x76, 0x69, 0x7d] = .error (.fault ⟨2, .keyNotBasic⟩) ∧
      (∀ n ≤ 2, ∃ w, check ⟨⟨32, 32⟩, none⟩
        (([0x61, 0x7b, 0x76, 0x69, 0x7d] : Bytes).take n ++ w) = .ok ()) ∧
      ∀ w, check ⟨⟨32, 32⟩, none⟩ ([0x61, 0x7b, 0x76] ++ w) ≠ .ok () := by
  have h : check ⟨⟨32, 32⟩, none⟩ [0x61, 0x7b, 0x76, 0x69, 0x7d] =
      .error (.fault ⟨2, .keyNotBasic⟩) := by
    rw [check_unlimited]
    rfl
  obtain ⟨-, hbefore, hafter⟩ := first_fault ⟨32, 32⟩ _ _ h
  exact ⟨h, hbefore, hafter (by decide)⟩

end DBusTypes
