import DBusTypes.TypeTree
import DBusTypes.Proofs.Openings

/-!
# Walking through the types of a text

A walk comes to each type before the types in it. Every level is a text of its own, with offsets of
its own; added up on the way down, they are the places of the original text, and the walk comes to
each of its bytes that is not a bracket, once and in order.

* `Visit`, `Excerpts.walk` — what a walk comes to, and where
* `Progress.Awaits` — what may come next in a text that has been read so far
* `Progress.exists_part` — **in front of each part of an element, one more container is open**
* `Walked`, `Element.walks` — a walk through an element comes to all types of it
* `walk_covers` — **a walk comes to each byte that starts a type, as deep as it stands**
-/

namespace DBusTypes

/-! ## Visits -/

/-- A type that a walk comes to. -/
structure Visit where
  /-- Where the type starts in the text that the walk goes through. -/
  position : Nat
  depth : Nat
  type : Excerpt

namespace TypeTree

mutual

/-- The visits to a tree. Its root was cut out of the text that starts at `base`, and its children
out of the text behind the code of the root. -/
def visits (base depth : Nat) : TypeTree → List Visit
  | node x ts => ⟨base + x.offset, depth, x⟩ :: visitsAll (base + x.offset + 1) (depth + 1) ts

/-- The same for each tree of a list, one after the other. -/
def visitsAll (base depth : Nat) : List TypeTree → List Visit
  | [] => []
  | t :: ts => visits base depth t ++ visitsAll base depth ts

end

mutual

/-- The visits are the types of a tree, each before its children. -/
theorem map_visits (base depth : Nat) (t : TypeTree) :
    (t.visits base depth).map (fun v => (v.depth, v.type)) = t.preorder depth := by
  cases t with
  | node x ts => rw [visits, preorder, List.map_cons, map_visitsAll]

theorem map_visitsAll (base depth : Nat) (ts : List TypeTree) :
    (visitsAll base depth ts).map (fun v => (v.depth, v.type)) = preorderAll depth ts := by
  cases ts with
  | nil => rfl
  | cons t ts => rw [visitsAll, preorderAll, List.map_append, map_visits, map_visitsAll]

end

end TypeTree

/-- The visits to all types that are left in a text, and to the types in them. -/
def Excerpts.walk (it : Excerpts) : List Visit := TypeTree.visitsAll 0 0 it.forest

/-- Whether a byte of a signature starts a type: all do, except the brackets that end one. -/
def startsType (b : UInt8) : Bool := b != structEnd && b != entryEnd

theorem Code.startsType_byte (c : Code) : startsType c.byte = true := by
  cases c with
  | basic k => cases k <;> rfl
  | variant | array | struct | dictEntry => rfl

theorem Code.not_startsType_of_mem_closing {c : Code} {b : UInt8} (h : b ∈ c.closing) :
    startsType b = false := by
  cases c with
  | struct =>
    rw [List.mem_singleton.mp h]
    rfl
  | dictEntry =>
    rw [List.mem_singleton.mp h]
    rfl
  | basic k | variant | array => exact absurd h List.not_mem_nil

/-! ## What may come next -/

namespace Stem

theorem kind_eq_entry {g : Stem} (h : g.container = .dictEntry) : g.kind = .entry := by
  cases g with
  | array | struct ts => simp [container] at h
  | key | value k | full k v => rfl

/-- Nothing but an array takes a dict-entry. -/
theorem eq_array_of_takes {gs : List Stem} (h : Takes .sequence gs .entry) :
    ∃ outer, gs = array :: outer := by
  cases gs with
  | nil => simp [Takes] at h
  | cons g outer =>
    cases g with
    | array => exact ⟨outer, rfl⟩
    | struct ts | key | value k | full k v => simp [Takes] at h

/-- Each dict-entry stands in an array of its own, so no more of them are open than arrays; and right
behind the marker of an array, fewer are. -/
theorem openEntries_le {limit : Depth} {gs : List Stem} (hs : Sound limit .sequence gs) :
    openEntries gs ≤ openContainers gs ∧
      ∀ outer, gs = array :: outer → openEntries gs < openContainers gs := by
  induction gs with
  | nil => exact ⟨Nat.le_refl _, by simp⟩
  | cons g outer ih =>
    obtain ⟨hk, -, ho⟩ := hs
    obtain ⟨hle, hlt⟩ := ih ho
    by_cases hg : g.container = .dictEntry
    · obtain ⟨hc, he⟩ := openContainers_entry outer hg
      rw [kind_eq_entry hg] at hk
      obtain ⟨outer', rfl⟩ := eq_array_of_takes hk
      have hfewer := hlt _ rfl
      refine ⟨by omega, ?_⟩
      intro _ h
      obtain ⟨rfl, -⟩ := List.cons.inj h
      simp [container] at hg
    · obtain ⟨hc, he⟩ := openContainers_container outer hg
      exact ⟨by omega, fun _ _ => by omega⟩

theorem length_eq_openContainers_add (gs : List Stem) :
    gs.length = openContainers gs + openEntries gs := by
  rw [List.length_eq_countP_add_countP (fun g : Stem => g.container != .dictEntry), openContainers,
    openEntries]
  congr 2
  funext g
  simp only [bne_iff_ne, ne_eq, Decidable.not_not, beq_eq_decide]

/-- In front of each part of an element there is the beginning of the element. -/
theorem exists_part {limit : Depth} {gs : List Stem} {e f : Element} {ps rs : List Element}
    (hs : Sound limit .sequence gs) (hk : Takes .sequence gs e.kind)
    (hr : Room limit gs e.containers e.entries) (hp : e.parts = ps ++ f :: rs) :
    ∃ g, Sound limit .sequence (g :: gs) ∧ g.render = e.code.byte :: Element.renderAll ps ∧
      Takes .sequence (g :: gs) f.kind ∧ Room limit (g :: gs) f.containers f.entries := by
  cases hcode : e.code with
  | basic k =>
    obtain rfl := Element.code_eq_basic hcode
    simp [Element.parts] at hp
  | variant =>
    obtain rfl := Element.code_eq_variant hcode
    simp [Element.parts] at hp
  | array =>
    obtain ⟨f', rfl⟩ := Element.code_eq_array hcode
    rw [Element.parts_arrayOf] at hp
    obtain ⟨rfl, rfl, -⟩ : ps = [] ∧ f = f' ∧ rs = [] := by
      simpa [List.singleton_eq_append_iff] using hp
    rw [Element.kind_arrayOf] at hk
    rw [Element.containers, Element.entries, Element.containers_arrayOf, Element.entries_arrayOf,
      ← room_container (g := array) (by decide)] at hr
    exact ⟨array, ⟨hk, room_mono hr (Nat.zero_le _) (Nat.zero_le _), hs⟩, rfl, trivial, hr⟩
  | struct =>
    obtain ⟨t, ts, rfl⟩ := Element.code_eq_struct hcode
    -- The struct has the fields in front of `f` so far.
    obtain ⟨us, ws, hts, rfl, hws⟩ := List.map_eq_append_iff.mp hp
    obtain ⟨w, vs, rfl, rfl, -⟩ := List.map_eq_cons_iff.mp hws
    rw [Element.containers, Element.entries, Ty.containers_struct, Ty.entries_struct, hts,
      ← room_container (g := struct us) (by simp [container]), Ty.containersAll_append,
      Ty.entriesAll_append, room_max, Ty.containersAll, Ty.entriesAll, room_max] at hr
    rw [Element.renderAll_map_type]
    exact ⟨struct us, ⟨hk, hr.1, hs⟩, rfl, Element.kind_type_ne_entry w, hr.2.1⟩
  | dictEntry =>
    obtain ⟨k, v, rfl⟩ := Element.code_eq_dictEntry hcode
    -- The key needs no room, so there is room for both parts if there is for the value.
    have hr' : ∀ g : Stem, g.container = .dictEntry → Room limit (g :: gs) v.containers v.entries :=
      fun g hg => (room_entry hg).mpr hr
    cases ps with
    | nil =>
      obtain ⟨rfl, -⟩ := List.cons.inj hp
      exact ⟨key, ⟨hk, room_mono (hr' key rfl) (Nat.zero_le _) (Nat.zero_le _), hs⟩, rfl, rfl,
        room_mono (hr' key rfl) (Nat.zero_le _) (Nat.zero_le _)⟩
    | cons p ps =>
      obtain ⟨rfl, hrest⟩ := List.cons.inj hp
      obtain ⟨rfl, rfl, -⟩ : ps = [] ∧ f = .type v ∧ rs = [] := by
        simpa [List.singleton_eq_append_iff] using hrest
      exact ⟨value k, ⟨hk, room_mono (hr' (value k) rfl) (Nat.zero_le _) (Nat.zero_le _), hs⟩, rfl,
        Element.kind_type_ne_entry v, hr' (value k) rfl⟩

end Stem

namespace Progress

variable {limit : Depth}

/-- Whether an element may come next. -/
def Awaits (p : Progress limit) (e : Element) : Prop :=
  Stem.Takes .sequence p.stems e.kind ∧ Stem.Room limit p.stems e.containers e.entries

/-- What may come somewhere in a text may be the element of an array. -/
theorem Awaits.allowed {p : Progress limit} {e : Element} (h : p.Awaits e) :
    e.Allowed .top .element := by
  obtain ⟨-, hc, hd⟩ := h
  obtain ⟨hc', hd'⟩ := limit.toNat_le_top
  exact ⟨fun _ => rfl, by omega, by omega⟩

/-- In front of each of several types that fit, nothing is open. -/
theorem exists_type {ts : List Ty} (h : Ty.Fit limit ts) {ps : List Element} {e : Element}
    {rs : List Element} (hs : ts.map .type = ps ++ e :: rs) :
    ∃ p : Progress limit, p.Awaits e ∧ p.render = Element.renderAll ps ∧ p.stems.length = 0 := by
  obtain ⟨us, ws, rfl, rfl, hws⟩ := List.map_eq_append_iff.mp hs
  obtain ⟨t, vs, rfl, rfl, -⟩ := List.map_eq_cons_iff.mp hws
  obtain ⟨hus, hws⟩ := Ty.fit_append.mp h
  obtain ⟨-, hc, hd⟩ := Element.allowed_sequence.mpr ⟨t, rfl, (Ty.fit_cons.mp hws).1⟩
  refine ⟨⟨us, [], hus, trivial⟩, ⟨?_, Stem.room_nil.mpr ⟨hc, hd⟩⟩, ?_, rfl⟩
  · exact fun hk => absurd hk (Element.kind_type_ne_entry t)
  · rw [render, Stem.renderAll, List.append_nil, Element.renderAll_map_type]

/-- **In front of each part of an element, one more container is open** than in front of the element:
the one that it starts. -/
theorem exists_part (p : Progress limit) {e : Element} (h : p.Awaits e) {ps : List Element}
    {f : Element} {rs : List Element} (hs : e.parts = ps ++ f :: rs) :
    ∃ q : Progress limit, q.Awaits f ∧
      q.render = p.render ++ [e.code.byte] ++ Element.renderAll ps ∧
      q.stems.length = p.stems.length + 1 := by
  obtain ⟨g, hg, hrender, htakes, hroom⟩ := Stem.exists_part p.sound h.1 h.2 hs
  refine ⟨⟨p.types, g :: p.stems, p.fit, hg⟩, ⟨htakes, hroom⟩, ?_, rfl⟩
  simp only [render, Stem.renderAll, hrender, List.append_assoc, List.singleton_append]

/-- No more is open than the limit on arrays and structs, and once more as many dict-entries as that
and their own limit allow. -/
theorem length_stems_le (p : Progress limit) : p.stems.length ≤
    limit.containers.toNat + min limit.containers.toNat limit.entries.toNat := by
  obtain ⟨hc, he⟩ := Stem.room_zero p.sound
  have hle := (Stem.openEntries_le p.sound).1
  rw [Stem.length_eq_openContainers_add]
  omega

end Progress

/-! ## What a walk comes to -/

/-- Whether a visit finds an element in a text, where reading the text has come to. -/
def Visit.Finds (limit : Depth) (text : Bytes) (v : Visit) : Prop :=
  ∃ (p : Progress limit) (e : Element) (rest : Bytes), text = p.render ++ (e.render ++ rest) ∧
    v.position = p.render.length ∧ v.depth = p.stems.length ∧ v.type.text = e.render ∧
    v.type.code = e.code

/-- Whether visits come to all types of a part of a text, which starts at `start`. -/
structure Walked (limit : Depth) (text : Bytes) (start : Nat) (part : Bytes) (vs : List Visit) :
    Prop where
  positions : vs.map (·.position) = part.findIdxs startsType start
  codes : vs.map (·.type.code.byte) = part.filter startsType
  finds : ∀ v ∈ vs, v.Finds limit text

/-- Whether a walk through an element comes to all types of it, wherever it may come in a text. -/
def Element.Walks (limit : Depth) (text : Bytes) (e : Element) : Prop :=
  ∀ (p : Progress limit) (rest : Bytes), p.Awaits e → text = p.render ++ (e.render ++ rest) →
    ∀ (x : Excerpt) (base : Nat), x.text = e.render → x.code = e.code →
      base + x.offset = p.render.length →
        Walked limit text p.render.length e.render (x.tree.visits base p.stems.length)

namespace Walked

variable {limit : Depth} {text : Bytes} {start : Nat}

theorem append {u w : Bytes} {vs ws : List Visit} (h : Walked limit text start u vs)
    (h' : Walked limit text (start + u.length) w ws) :
    Walked limit text start (u ++ w) (vs ++ ws) where
  positions := by rw [List.map_append, h.positions, h'.positions, List.findIdxs_append]
  codes := by rw [List.map_append, h.codes, h'.codes, List.filter_append]
  finds := by
    intro v hv
    rcases List.mem_append.mp hv with hv | hv
    · exact h.finds v hv
    · exact h'.finds v hv

theorem code {c : Code} {v : Visit} (hp : v.position = start) (hc : v.type.code = c)
    (hf : v.Finds limit text) : Walked limit text start [c.byte] [v] where
  positions := by simp [hp, c.startsType_byte]
  codes := by simp [hc, c.startsType_byte]
  finds := by
    intro w hw
    rw [List.mem_singleton.mp hw]
    exact hf

/-- No visit comes to a bracket. -/
theorem closing (c : Code) : Walked limit text start c.closing [] where
  positions := by
    rw [eq_comm, List.map_nil, List.findIdxs_eq_nil_iff]
    exact fun b hb => Code.not_startsType_of_mem_closing hb
  codes := by
    rw [eq_comm, List.map_nil, List.filter_eq_nil_iff]
    intro b hb
    simp [Code.not_startsType_of_mem_closing hb]
  finds := by simp

/-- A walk through elements that stand one after the other comes to all types of each. -/
theorem of_cut {es : List Element} (h : ∀ e ∈ es, e.Walks limit text) {u rest : Bytes}
    (ht : text = u ++ (Element.renderAll es ++ rest)) {depth : Nat}
    (hp : ∀ ps e rs, es = ps ++ e :: rs → ∃ p : Progress limit, p.Awaits e ∧
      p.render = u ++ Element.renderAll ps ∧ p.stems.length = depth)
    {base offset : Nat} (hb : base + offset = u.length) :
    Walked limit text u.length (Element.renderAll es)
      (TypeTree.visitsAll base depth ((Excerpts.cut offset es).map Excerpt.tree)) := by
  induction es generalizing u offset with
  | nil => exact ⟨rfl, rfl, by simp [Excerpts.cut, TypeTree.visitsAll]⟩
  | cons e es ih =>
    rw [Element.renderAll_cons] at ht ⊢
    rw [Excerpts.cut, List.map_cons, TypeTree.visitsAll]
    refine append ?_ ?_
    · obtain ⟨p, hawaits, hrender, rfl⟩ := hp [] e es rfl
      rw [Element.renderAll, List.flatMap_nil, List.append_nil] at hrender
      rw [← hrender] at ht hb ⊢
      rw [List.append_assoc] at ht
      exact h e List.mem_cons_self p _ hawaits ht _ _ rfl rfl hb
    · have hlen : u.length + e.render.length = (u ++ e.render).length := List.length_append.symm
      rw [hlen]
      refine ih (fun f hf => h f (List.mem_cons_of_mem _ hf)) ?_ ?_ ?_
      · rw [ht]
        simp only [List.append_assoc]
      · intro ps f rs hs
        obtain ⟨p, hawaits, hrender, hdepth⟩ := hp (e :: ps) f rs (by rw [hs, List.cons_append])
        refine ⟨p, hawaits, ?_, hdepth⟩
        rw [hrender, Element.renderAll_cons, List.append_assoc]
      · rw [← hlen, ← hb, Nat.add_assoc]

end Walked

/-- **A walk through an element comes to all types of it**: to its code, and one level down to all
types of its parts. -/
theorem Element.walks (limit : Depth) (text : Bytes) (e : Element) : e.Walks limit text := by
  induction e using induction_parts with
  | _ e ih =>
    intro p rest hp ht x base hx hc hb
    rw [Excerpt.tree_eq, TypeTree.visits, Excerpt.toList_children hp.allowed hx hc, hb,
      e.render_eq_parts]
    have hfinds : Visit.Finds limit text ⟨p.render.length, p.stems.length, x⟩ :=
      ⟨p, e, rest, ht, rfl, rfl, hx, hc⟩
    -- The parts stand behind the code, and inside them the element is the innermost container.
    have htext : text = p.render ++ [e.code.byte] ++
        (renderAll e.parts ++ (e.code.closing ++ rest)) := by
      rw [ht, e.render_eq_parts]
      simp
    have hparts : Walked limit text (p.render ++ [e.code.byte]).length (renderAll e.parts)
        (TypeTree.visitsAll (p.render.length + 1) (p.stems.length + 1)
          ((Excerpts.cut 0 e.parts).map Excerpt.tree)) :=
      .of_cut ih htext (fun _ _ _ => p.exists_part hp) (by simp)
    rw [List.length_append] at hparts
    have hwhole := (Walked.code rfl hc hfinds).append (hparts.append (.closing e.code))
    rw [List.append_nil] at hwhole
    exact hwhole

/-! ## A walk through a whole text -/

/-- Whether a visit is right about a text: the type that starts at its position is the one it has, and
its depth is the number of containers that are open there, which keeps within a limit. -/
structure Visit.Right (limit : Depth) (text : Bytes) (v : Visit) : Prop where
  code : text[v.position]? = some v.type.code.byte
  element : ∃ e : Element, v.type.text = e.render ∧ e.render <+: text.drop v.position
  depth : v.depth = {q | ∃ x, Open (text.take v.position) x q}.ncard
  bound : v.depth ≤ limit.containers.toNat + min limit.containers.toNat limit.entries.toNat

/-- What a visit finds, it is right about. -/
theorem Visit.Finds.right {limit : Depth} {text : Bytes} {v : Visit} (h : v.Finds limit text) :
    v.Right limit text := by
  obtain ⟨p, e, rest, rfl, hposition, hdepth, hx, hc⟩ := h
  refine ⟨?_, ⟨e, hx, ?_⟩, ?_, ?_⟩
  · rw [hposition, hc, List.getElem?_append_right (Nat.le_refl _), Nat.sub_self, e.render_eq_parts]
    rfl
  · rw [hposition, List.drop_left]
    exact List.prefix_append _ _
  · rw [hposition, List.take_left, hdepth]
    simpa using (p.ncard_open fun _ => true).symm
  · rw [hdepth]
    exact p.length_stems_le

/-- **A walk comes to each byte that starts a type.** Going through all types of an accepted text, and
through the types in them, comes to the bytes that are no brackets, each once and in their order. What
is found there is the type that starts there, as deep as containers are open in front of it; and that
is within the limits, however long the text is. -/
theorem walk_covers (limits : Limits) (text : Bytes) (it : Excerpts)
    (h : Excerpts.ofBytes limits text = .ok it) :
    it.walk.map (fun v => (v.depth, v.type)) = TypeTree.preorderAll 0 it.forest ∧
      it.walk.map (·.position) = text.findIdxs startsType ∧
      it.walk.map (·.type.code.byte) = text.filter startsType ∧
      ∀ v ∈ it.walk, v.Right limits.depth text := by
  obtain ⟨hc, rfl⟩ := Excerpts.ofBytes_ok_iff.mp h
  obtain ⟨-, ts, rfl, hfit⟩ := check_ok_iff_fit.mp hc
  have hb : (Excerpts.ofChecked .sequence (Ty.renderAll ts)).place.Between (Ty.renderAll ts)
      .sequence [] (ts.map .type) := Bookmark.between_types hfit.top
  have htext : Ty.renderAll ts = [] ++ (Element.renderAll (ts.map .type) ++ []) := by
    rw [List.nil_append, List.append_nil, Element.renderAll_map_type]
  have hwalked : Walked limits.depth (Ty.renderAll ts) 0 (Element.renderAll (ts.map .type))
      (Excerpts.ofChecked .sequence (Ty.renderAll ts)).walk := by
    rw [Excerpts.walk, Excerpts.forest, Excerpts.toList_eq hb]
    exact .of_cut (fun e _ => e.walks _ _) htext (fun _ _ _ => Progress.exists_type hfit) rfl
  rw [Element.renderAll_map_type] at hwalked
  exact ⟨TypeTree.map_visitsAll 0 0 _, hwalked.positions, hwalked.codes,
    fun v hv => (hwalked.finds v hv).right⟩

/-- In `a{s(iv)}` a walk comes to all bytes but the last two, which are brackets. -/
theorem walk_covers_dict : ∃ it,
    Excerpts.ofBytes .standard [0x61, 0x7b, 0x73, 0x28, 0x69, 0x76, 0x29, 0x7d] = .ok it ∧
      it.walk.map (·.position) = [0, 1, 2, 3, 4, 5] := by
  let t : Ty := .dict .string (.struct (.basic .int32) [.variant])
  have hc : check .standard (Ty.renderAll [t]) = .ok () :=
    check_ok_iff_fit.mpr ⟨by decide, _, rfl, by decide⟩
  have h := Excerpts.ofBytes_ok_iff.mpr ⟨hc, rfl⟩
  exact ⟨_, h, (walk_covers .standard _ _ h).2.1⟩

end DBusTypes
