import DBusTypes.Proofs.Feed

/-!
# One element

Reading an element and writing one are inverse to each other, wherever in a type the element stands
and whatever comes after it.

* `Stem.readsBack` — **the text of an element is read as that element**, where it may stand and
  there is room for it
* `Stem.run_sound` — **whatever is read as a whole is the text of an element**
-/

namespace DBusTypes

namespace Nest

/-- What reading does in a state: it stops if nothing is open, and goes on otherwise. -/
def resume (limit : Depth) (scope : Scope) (s : Nest) (offset : Nat) (rest : Bytes) :
    Nest × Except Fault (Nat × Bytes) :=
  if s.opened.isEmpty then (s, .ok (offset, rest)) else run limit scope s offset rest

variable {limit : Depth} {scope : Scope} {s s' : Nest} {offset : Nat} {b : UInt8} {rest : Bytes}

theorem run_cons_ok (h : s.feed limit scope offset b = .ok s') :
    run limit scope s offset (b :: rest) = resume limit scope s' (offset + 1) rest := by
  rw [run, h]
  rfl

theorem run_cons_error {f : Fault} (h : s.feed limit scope offset b = .error f) :
    run limit scope s offset (b :: rest) = (s, .error f) := by
  rw [run, h]

end Nest

namespace Stem

variable {limit : Depth} {scope : Scope} {base : Nat}

theorem resume_cons (g : Stem) (outer : List Stem) (offset : Nat) (rest : Bytes) :
    (nest base (g :: outer)).resume limit scope offset rest
      = (nest base (g :: outer)).run limit scope offset rest := rfl

theorem length_renderAll_cons (g : Stem) (outer : List Stem) :
    (renderAll (g :: outer)).length = (renderAll outer).length + g.render.length := by
  rw [renderAll, List.length_append]

/-- Whether the text of an element is read as that element: where it may stand and there is room for
it, whatever is open and whatever bytes follow. -/
def ReadsBack (limit : Depth) (scope : Scope) (base : Nat) (e : Element) : Prop :=
  ∀ (gs : List Stem) (offset : Nat) (rest : Bytes), Sound limit scope gs → Takes scope gs e.kind →
    Room limit gs e.containers e.entries → offset = base + (renderAll gs).length →
    (nest base gs).run limit scope offset (e.render ++ rest)
      = ((fill gs e).nest base).resume limit scope (offset + e.render.length) rest

theorem readsBack_basic (k : Basic) : ReadsBack limit scope base (.type (.basic k)) := by
  intro gs offset rest hs ht _ _
  exact Nest.run_cons_ok ((feed_basic hs k).mpr ⟨ht, rfl⟩)

theorem readsBack_variant : ReadsBack limit scope base (.type .variant) := by
  intro gs offset rest hs ht _ _
  exact Nest.run_cons_ok ((feed_variant hs).mpr ⟨ht, rfl⟩)

/-- The marker of an array is read, then its element. -/
theorem readsBack_arrayOf {e : Element} (he : ReadsBack limit scope base e) :
    ReadsBack limit scope base (.type e.arrayOf) := by
  intro gs offset rest hs ht hr ho
  rw [Element.kind_arrayOf] at ht
  rw [Element.containers, Element.entries, Element.containers_arrayOf, Element.entries_arrayOf] at hr
  have hone : Room limit gs 1 0 := by simp only [Room] at hr ⊢; omega
  have hs' : Sound limit scope (array :: gs) := ⟨ht, (room_container (by decide)).mpr hone, hs⟩
  have ho' : offset + 1 = base + (renderAll (array :: gs)).length := by
    rw [length_renderAll_cons, ho]
    rfl
  rw [Element.render, Element.render_arrayOf, List.cons_append,
    Nest.run_cons_ok ((feed_array hs ho).mpr ⟨ht, hone, rfl⟩), resume_cons,
    he (array :: gs) (offset + 1) rest hs' trivial ((room_container (by decide)).mpr hr) ho',
    List.length_cons, Nat.add_right_comm, Nat.add_assoc]
  rfl

/-- The opening byte of a dict-entry is read, its key, its value, and its bracket. -/
theorem readsBack_entry (k : Basic) {v : Ty} (hv : ReadsBack limit scope base (.type v)) :
    ReadsBack limit scope base (.entry k v) := by
  intro gs offset rest hs ht hr ho
  have hone : Room limit gs 0 1 := by simp only [Room, Element.entries] at hr ⊢; omega
  have hroom : Room limit (value k :: gs) v.containers v.entries := (room_entry rfl).mpr hr
  have hk : Sound limit scope (key :: gs) := ⟨ht, (room_entry rfl).mpr hone, hs⟩
  have hkv : Sound limit scope (value k :: gs) := ⟨ht, (room_entry rfl).mpr hone, hs⟩
  have hf : Sound limit scope (full k v :: gs) := ⟨ht, hroom, hs⟩
  have ho' : offset + 1 + 1 = base + (renderAll (value k :: gs)).length := by
    rw [length_renderAll_cons, ho]
    rfl
  have htext : (Element.entry k v).render ++ rest =
      Code.dictEntry.byte :: (Code.basic k).byte :: ((Element.type v).render ++ entryEnd :: rest) := by
    simp [Element.render]
  rw [htext, Nest.run_cons_ok ((feed_entry hs ho).mpr ⟨ht, hone, rfl⟩), resume_cons,
    Nest.run_cons_ok ((feed_basic hk k).mpr ⟨rfl, rfl⟩)]
  show (nest base (value k :: gs)).run limit scope (offset + 1 + 1) _ = _
  rw [hv (value k :: gs) _ _ hkv (Element.kind_type_ne_entry v) hroom ho']
  show (nest base (full k v :: gs)).run limit scope _ (entryEnd :: rest) = _
  rw [Nest.run_cons_ok ((feed_entryEnd hf).mpr ⟨k, v, gs, rfl, rfl⟩),
    show offset + 1 + 1 + (Element.type v).render.length + 1
      = offset + (Element.entry k v).render.length by simp [Element.render]; omega]

/-- Types that follow each other in a struct are read as its fields. -/
theorem run_fields {ts : List Ty} (h : ∀ t ∈ ts, ReadsBack limit scope base (.type t)) :
    ∀ (fs : List Ty) (gs : List Stem) (offset : Nat) (rest : Bytes),
      Sound limit scope (struct fs :: gs) →
      Room limit (struct fs :: gs) (Ty.containersAll ts) (Ty.entriesAll ts) →
      offset = base + (renderAll (struct fs :: gs)).length →
      (nest base (struct fs :: gs)).run limit scope offset (Ty.renderAll ts ++ rest)
        = (nest base (struct (fs ++ ts) :: gs)).run limit scope
            (offset + (Ty.renderAll ts).length) rest := by
  induction ts with
  | nil =>
    intro fs gs offset rest _ _ _
    rw [Ty.renderAll, List.append_nil]
    rfl
  | cons t ts ih =>
    intro fs gs offset rest hs hr ho
    obtain ⟨hr1, hr2⟩ := room_max.mp hr
    have hk := Element.kind_type_ne_entry t
    have hs' : Sound limit scope (struct (fs ++ [t]) :: gs) := (sound_fill hs hk hr1).2
    have ho' : offset + t.render.length = base + (renderAll (struct (fs ++ [t]) :: gs)).length := by
      have := congrArg List.length (render_fill hs hk)
      simp only [fill, Reached.render, List.length_append, Element.render] at this
      omega
    have hc : ∀ fs, (struct fs).container ≠ .dictEntry := by simp [container]
    rw [Ty.renderAll, List.append_assoc]
    refine (h t List.mem_cons_self _ _ _ hs hk hr1 ho).trans ?_
    show (nest base (struct (fs ++ [t]) :: gs)).run limit scope (offset + t.render.length) _ = _
    rw [ih (fun u hu => h u (List.mem_cons_of_mem t hu)) (fs ++ [t]) gs _ rest hs'
      ((room_container (hc _)).mpr ((room_container (hc _)).mp hr2)) ho', List.append_assoc,
      List.length_append, ← Nat.add_assoc]
    rfl

/-- The opening byte of a struct is read, its fields, and its bracket. -/
theorem readsBack_struct {t : Ty} {ts : List Ty}
    (h : ∀ u ∈ t :: ts, ReadsBack limit scope base (.type u)) :
    ReadsBack limit scope base (.type (.struct t ts)) := by
  intro gs offset rest hs ht hr ho
  have hc : ∀ fs, (struct fs).container ≠ .dictEntry := by simp [container]
  have hroom : Room limit gs (Ty.containersAll (t :: ts) + 1) (Ty.entriesAll (t :: ts)) := by
    rw [← Ty.containers_struct, ← Ty.entries_struct]
    exact hr
  have hone : Room limit gs 1 0 := by simp only [Room] at hroom ⊢; omega
  have hs' : Sound limit scope (struct [] :: gs) := ⟨ht, (room_container (hc _)).mpr hone, hs⟩
  have hf : Sound limit scope (struct (t :: ts) :: gs) := ⟨ht, (room_container (hc _)).mpr hroom, hs⟩
  have ho' : offset + 1 = base + (renderAll (struct [] :: gs)).length := by
    rw [length_renderAll_cons, ho]
    rfl
  have htext : (Element.type (.struct t ts)).render ++ rest =
      Code.struct.byte :: (Ty.renderAll (t :: ts) ++ structEnd :: rest) := by
    simp [Element.render, Ty.render_struct]
  rw [htext, Nest.run_cons_ok ((feed_struct hs ho).mpr ⟨ht, hone, rfl⟩), resume_cons,
    run_fields h [] gs _ _ hs' ((room_container (hc _)).mpr hroom) ho', List.nil_append,
    Nest.run_cons_ok ((feed_structEnd hf).mpr ⟨t, ts, gs, rfl, rfl⟩),
    show offset + 1 + (Ty.renderAll (t :: ts)).length + 1
      = offset + (Element.type (.struct t ts)).render.length by
        simp [Element.render, Ty.render_struct]; omega]

mutual

/-- The text of every type is read as that type. -/
theorem readsBack_type : ∀ t : Ty, ReadsBack limit scope base (.type t)
  | .basic k => readsBack_basic k
  | .variant => readsBack_variant
  | .array t => readsBack_arrayOf (readsBack_type t)
  | .dict k v => readsBack_arrayOf (readsBack_entry k (readsBack_type v))
  | .struct t ts => readsBack_struct (readsBack_types (t :: ts))

/-- The same for each type of a list. -/
theorem readsBack_types : ∀ ts : List Ty, ∀ t ∈ ts, ReadsBack limit scope base (.type t)
  | [], _, h => absurd h List.not_mem_nil
  | t :: ts, u, h =>
    (List.mem_cons.mp h).elim (fun h => h ▸ readsBack_type t) (readsBack_types ts u)

end

/-- The text of every element is read as that element. -/
theorem readsBack : ∀ e : Element, ReadsBack limit scope base e
  | .type t => readsBack_type t
  | .entry k v => readsBack_entry k (readsBack_type v)

/-- **Whatever is read as a whole is the text of an element**, and what is open says how much of that
text has been read before. -/
theorem run_sound {gs : List Stem} {offset stop : Nat} {bytes rest : Bytes} {s' : Nest}
    (hs : Sound limit scope gs) (ho : offset = base + (renderAll gs).length)
    (h : (nest base gs).run limit scope offset bytes = (s', .ok (stop, rest))) :
    ∃ (e : Element) (front : Bytes), e.Allowed limit scope ∧ bytes = front ++ rest ∧
      e.render = renderAll gs ++ front ∧ stop = offset + front.length ∧ s' = .start := by
  induction bytes generalizing gs offset with
  | nil => simp [Nest.run] at h
  | cons b bytes ih =>
    cases hf : (nest base gs).feed limit scope offset b with
    | error f => simp [Nest.run_cons_error hf] at h
    | ok s₁ =>
      rw [Nest.run_cons_ok hf] at h
      obtain ⟨r, hr, htext, rfl⟩ := feed_ok hs ho hf
      cases r with
      | whole e =>
        obtain ⟨rfl, rfl, rfl⟩ : Nest.start = s' ∧ offset + 1 = stop ∧ bytes = rest := by
          simpa [Reached.nest, Nest.resume, Nest.start] using h
        exact ⟨e, [b], hr, rfl, htext, rfl, rfl⟩
      | inside gs' =>
        obtain ⟨hne, hs'⟩ := hr
        obtain ⟨g, outer, rfl⟩ := List.exists_cons_of_ne_nil hne
        have ho' : offset + 1 = base + (renderAll (g :: outer)).length := by
          rw [show renderAll (g :: outer) = renderAll gs ++ [b] from htext, ho, List.length_append]
          rfl
        obtain ⟨e, front, he, rfl, hfront, rfl, hst⟩ := ih hs' ho' h
        refine ⟨e, b :: front, he, rfl, ?_, by simp; omega, hst⟩
        rw [hfront, show renderAll (g :: outer) = renderAll gs ++ [b] from htext, List.append_assoc]
        rfl

/-- **An element is read exactly where its text stands.** -/
theorem run_start_ok_iff {offset stop : Nat} {bytes rest : Bytes} {s' : Nest} :
    Nest.start.run limit scope offset bytes = (s', .ok (stop, rest)) ↔
      ∃ e : Element, e.Allowed limit scope ∧ bytes = e.render ++ rest ∧
        stop = offset + e.render.length ∧ s' = .start := by
  constructor
  · intro h
    have hs : Sound limit scope [] := trivial
    rw [← nest_nil offset] at h
    obtain ⟨e, front, he, rfl, hfront, rfl, rfl⟩ := run_sound hs rfl h
    obtain rfl : e.render = front := hfront
    exact ⟨e, he, rfl, rfl, rfl⟩
  · rintro ⟨e, he, rfl, rfl, rfl⟩
    have hback : ReadsBack limit scope offset e := readsBack e
    exact hback [] offset rest trivial he.1 (room_nil.mpr he.2) rfl

end Stem

end DBusTypes
