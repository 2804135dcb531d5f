import Mathlib.Data.Set.Card
import DBusTypes.Proofs.FirstFault
import DBusTypes.Proofs.Inside

/-!
# What is open

A container is open at the end of some bytes if its code has come and the element that it starts has
not come to its end. That can be told from the bytes and the grammar alone, without reading them. The
state of reading names the same containers, at the same offsets.

* `Open` — whether a container that starts at an offset is still open at the end of some bytes
* `Innermost`, `HoldsTypes` — the last of the open containers, and how many types it has
* `Element.exists_at` — **each code in the text of an element starts an element**
* `Progress.open_iff` — **what the state has open is what is open**
* `Progress.ncard_open` — how many containers are open, by sort
-/

namespace DBusTypes

/-- The code that opens a container. -/
def Container.code : Container → Code
  | .array => .array
  | .struct => .struct
  | .dictEntry => .dictEntry

theorem Container.code_inj {x y : Container} (h : x.code = y.code) : x = y := by
  cases x <;> cases y <;> simp [code] at h ⊢

/-- Whether a container that starts at offset `q` is open at the end of some bytes: its code is there,
but no whole element. -/
def Open (u : Bytes) (x : Container) (q : Nat) : Prop :=
  u[q]? = some x.code.byte ∧ ∀ e : Element, ¬ e.render <+: u.drop q

/-- Whether a container is the last one that is open at the end of some bytes. -/
def Innermost (u : Bytes) (x : Container) (q : Nat) : Prop :=
  Open u x q ∧ ∀ y r, Open u y r → r ≤ q

/-- Whether what follows the code at offset `q` is `n` whole types, up to the end of the bytes. -/
def HoldsTypes (u : Bytes) (q n : Nat) : Prop :=
  ∃ ts : List Ty, u.drop (q + 1) = Ty.renderAll ts ∧ ts.length = n

/-! ## Whole elements -/

namespace Element

/-- What holds of an element if it holds of its parts holds of every element. -/
theorem induction_parts {motive : Element → Prop}
    (h : ∀ e, (∀ p ∈ e.parts, motive p) → motive e) (e : Element) : motive e := by
  induction hn : e.render.length using Nat.strong_induction_on generalizing e with
  | _ n ih =>
    refine h e ?_
    intro p hp
    have hle := length_render_le_of_mem hp
    have hlen := congrArg List.length e.render_eq_parts
    rw [List.length_cons, List.length_append] at hlen
    exact ih _ (by omega) p rfl

/-- A code is no bracket. -/
theorem getElem?_closing_ne {c d : Code} (i : Nat) : c.closing[i]? ≠ some d.byte := by
  intro h
  have hd : Code.ofByte? d.byte = none := by
    have hmem := List.mem_of_getElem? h
    cases c with
    | struct => rw [List.mem_singleton.mp hmem, Code.ofByte?_structEnd]
    | dictEntry => rw [List.mem_singleton.mp hmem, Code.ofByte?_entryEnd]
    | basic k | variant | array => exact absurd hmem List.not_mem_nil
  rw [Code.ofByte?_byte] at hd
  exact absurd hd (by simp)

/-- Each code among several elements starts an element, if it does so in each of them. -/
theorem exists_at_of_forall {c : Code} {ps : List Element} {i : Nat}
    (h : ∀ p ∈ ps, ∀ j, p.render[j]? = some c.byte → ∃ e : Element, e.render <+: p.render.drop j)
    (hi : (renderAll ps)[i]? = some c.byte) :
    ∃ e : Element, e.render <+: (renderAll ps).drop i := by
  induction ps generalizing i with
  | nil => simp [renderAll] at hi
  | cons p ps ih =>
    rw [renderAll_cons] at hi ⊢
    by_cases hlt : i < p.render.length
    · rw [List.getElem?_append_left hlt] at hi
      obtain ⟨e, he⟩ := h p List.mem_cons_self i hi
      refine ⟨e, ?_⟩
      rw [List.drop_append_of_le_length hlt.le]
      exact he.trans (List.prefix_append _ _)
    · have hle := Nat.not_lt.mp hlt
      rw [List.getElem?_append_right hle] at hi
      obtain ⟨e, he⟩ := ih (fun q hq => h q (List.mem_cons_of_mem p hq)) hi
      refine ⟨e, ?_⟩
      rw [List.drop_append, List.drop_eq_nil_of_le hle]
      exact he

/-- **Each code in the text of an element starts an element.** -/
theorem exists_at {c : Code} (e : Element) :
    ∀ i, e.render[i]? = some c.byte → ∃ p : Element, p.render <+: e.render.drop i := by
  induction e using induction_parts with
  | _ e ih =>
    intro i hi
    cases i with
    | zero => exact ⟨e, List.prefix_refl _⟩
    | succ i =>
      rw [render_eq_parts, List.getElem?_cons_succ] at hi
      rw [render_eq_parts, List.drop_succ_cons]
      by_cases hlt : i < (renderAll e.parts).length
      · rw [List.getElem?_append_left hlt] at hi
        obtain ⟨p, hp⟩ := exists_at_of_forall ih hi
        refine ⟨p, ?_⟩
        rw [List.drop_append_of_le_length hlt.le]
        exact hp.trans (List.prefix_append _ _)
      · rw [List.getElem?_append_right (Nat.not_lt.mp hlt)] at hi
        exact absurd hi (getElem?_closing_ne _)

end Element

namespace Open

variable {u v : Bytes} {x : Container} {q : Nat}

theorem lt_length (h : Open u x q) : q < u.length := (List.getElem?_eq_some_iff.mp h.1).1

/-- What is open is open from where it starts on. -/
theorem of_append (h : Open (u ++ v) x q) (hq : q < u.length) : Open u x q := by
  obtain ⟨hx, hno⟩ := h
  rw [List.getElem?_append_left hq] at hx
  refine ⟨hx, ?_⟩
  intro e he
  refine hno e ?_
  rw [List.drop_append_of_le_length hq.le]
  exact he.trans (List.prefix_append _ _)

/-- Nothing is open that starts among whole types. -/
theorem lt_of_append_renderAll {ts : List Ty} (h : Open (u ++ Ty.renderAll ts) x q) :
    q < u.length := by
  by_contra hq
  obtain ⟨hx, hno⟩ := h
  have hle := Nat.not_lt.mp hq
  rw [List.getElem?_append_right hle, ← Element.renderAll_map_type] at hx
  obtain ⟨e, he⟩ := Element.exists_at_of_forall (fun p _ => p.exists_at) hx
  refine hno e ?_
  rw [List.drop_append, List.drop_eq_nil_of_le hle, ← Element.renderAll_map_type]
  exact he

end Open

/-! ## The stems of what is open -/

namespace Stem

/-- The whole types that a stem has. -/
def types : Stem → List Ty
  | array | key => []
  | struct ts => ts
  | value k => [.basic k]
  | full k v => [.basic k, v]

/-- A stem is its code and its types, one after the other. -/
theorem render_eq_types (g : Stem) : g.render = g.container.code.byte :: Ty.renderAll g.types := by
  cases g <;> simp [render, container, Container.code, types, Ty.renderAll, Ty.render]

theorem length_types (g : Stem) : g.types.length = g.held := by
  cases g <;> rfl

theorem renderAll_append (inner outer : List Stem) :
    renderAll (inner ++ outer) = renderAll outer ++ renderAll inner := by
  induction inner with
  | nil => simp [renderAll]
  | cons g inner ih => rw [List.cons_append, renderAll, ih, renderAll, List.append_assoc]

/-- A container in the state is one of the stems. -/
theorem mem_frames {base : Nat} {gs : List Stem} {o : Opened} : o ∈ frames base gs ↔
    ∃ inner g outer, gs = inner ++ g :: outer ∧
      o = ⟨g.container, base + (renderAll outer).length, g.held⟩ := by
  induction gs with
  | nil => simp [frames]
  | cons g gs ih =>
    rw [frames, List.mem_cons, ih]
    constructor
    · rintro (rfl | ⟨inner, g', outer, rfl, rfl⟩)
      · exact ⟨[], g, gs, rfl, rfl⟩
      · exact ⟨g :: inner, g', outer, rfl, rfl⟩
    · rintro ⟨inner, g', outer, hgs, rfl⟩
      cases inner with
      | nil =>
        obtain ⟨rfl, rfl⟩ := List.cons.inj hgs
        exact Or.inl rfl
      | cons i inner =>
        obtain ⟨rfl, rfl⟩ := List.cons.inj hgs
        exact Or.inr ⟨inner, g', outer, rfl, rfl⟩

/-- Every container in the state starts before the end of the bytes. -/
theorem start_lt_of_mem_frames {base : Nat} {gs : List Stem} {o : Opened} (h : o ∈ frames base gs) :
    o.start < base + (renderAll gs).length := by
  obtain ⟨inner, g, outer, rfl, rfl⟩ := mem_frames.mp h
  rw [renderAll_append, renderAll, render_eq_types]
  simp only [List.length_append, List.length_cons]
  omega

/-- Further out, containers start earlier. -/
theorem pairwise_frames (base : Nat) (gs : List Stem) :
    (frames base gs).Pairwise fun a b => b.start < a.start := by
  induction gs with
  | nil => exact List.Pairwise.nil
  | cons g gs ih => exact List.Pairwise.cons (fun o ho => start_lt_of_mem_frames ho) ih

theorem countP_frames (base : Nat) (gs : List Stem) (sort : Container → Bool) :
    (frames base gs).countP (sort ·.container) = gs.countP (sort ·.container) := by
  induction gs with
  | nil => rfl
  | cons g gs ih => rw [frames, List.countP_cons, List.countP_cons, ih]

variable {limit : Depth} {scope : Scope}

/-- What comes next hangs on the innermost stem only. -/
theorem takes_cons {scope scope' : Scope} {g : Stem} {outer outer' : List Stem} {k : Kind} :
    Takes scope (g :: outer) k ↔ Takes scope' (g :: outer') k := by
  cases g <;> exact Iff.rfl

/-- Stems that are inside another one are the beginning of an element by themselves. -/
theorem sound_from {inner outer : List Stem} {g : Stem} (hs : Sound limit scope (inner ++ g :: outer)) :
    Sound limit .element (inner ++ [g]) := by
  have hroom : ∀ {gs gs' : List Stem} {c e : Nat}, gs.Sublist gs' → Room limit gs' c e →
      Room limit gs c e := by
    intro gs gs' c e hsub hr
    have hc : openContainers gs ≤ openContainers gs' := hsub.countP_le
    have he : openEntries gs ≤ openEntries gs' := hsub.countP_le
    simp only [Room] at hr ⊢
    omega
  induction inner with
  | nil =>
    obtain ⟨-, hr, -⟩ := hs
    exact ⟨fun _ => rfl, hroom (by simp) hr, trivial⟩
  | cons i inner ih =>
    obtain ⟨hk, hr, ho⟩ := hs
    refine ⟨?_, hroom (by simp) hr, ih ho⟩
    cases inner with
    | nil => exact takes_cons.mp hk
    | cons j inner => exact takes_cons.mp hk

/-- **What has only begun is not whole**, nor is any beginning of it. -/
theorem not_prefix {gs : List Stem} (hs : Sound limit scope gs) (hne : gs ≠ []) (e : Element) :
    ¬ e.render <+: renderAll gs := by
  rintro ⟨r, hr⟩
  obtain ⟨w, e', hw, -, he'⟩ := exists_completion_self hs hne
  have heq : e.render ++ (r ++ w) = e'.render ++ [] := by
    rw [← List.append_assoc, hr, he', List.append_nil]
  obtain ⟨-, hnil⟩ := e.unique e' _ _ heq
  exact hw (List.append_eq_nil_iff.mp hnil).2

end Stem

/-! ## The state of reading -/

namespace Progress

variable {limit : Depth} {x : Container} {q : Nat}

/-- Further out in the state, containers start earlier. -/
theorem pairwise_opened (p : Progress limit) :
    p.nest.opened.Pairwise fun a b => b.start < a.start := Stem.pairwise_frames _ _

/-- What is open is in the state. -/
theorem mem_frames_of_open {ts : List Ty} {gs : List Stem}
    (h : Open (Ty.renderAll ts ++ Stem.renderAll gs) x q) :
    ∃ n, ⟨x, q, n⟩ ∈ Stem.frames (Ty.renderAll ts).length gs := by
  induction gs with
  | nil =>
    rw [Stem.renderAll, List.append_nil, ← List.nil_append (Ty.renderAll ts)] at h
    exact absurd h.lt_of_append_renderAll (Nat.not_lt_zero q)
  | cons g outer ih =>
    rw [Stem.renderAll, ← List.append_assoc] at h
    by_cases hq : q < (Ty.renderAll ts ++ Stem.renderAll outer).length
    · obtain ⟨n, hn⟩ := ih (h.of_append hq)
      exact ⟨n, List.mem_cons_of_mem _ hn⟩
    · -- The types of the innermost stem are whole, so it can only be the stem itself.
      rw [Stem.render_eq_types] at h
      have hx := h.1
      rw [List.append_cons] at h
      have hlt := h.lt_of_append_renderAll
      rw [List.length_append, List.length_singleton] at hlt
      obtain rfl : q = (Ty.renderAll ts ++ Stem.renderAll outer).length := by omega
      rw [List.getElem?_append_right (Nat.le_refl _), Nat.sub_self] at hx
      obtain rfl : g.container = x :=
        Container.code_inj (Code.byte_inj (Option.some.inj hx))
      refine ⟨g.held, ?_⟩
      rw [Stem.frames, List.length_append]
      exact List.mem_cons_self

/-- **What the state has open is what is open.** -/
theorem open_iff (p : Progress limit) :
    Open p.render x q ↔ ∃ n, ⟨x, q, n⟩ ∈ p.nest.opened := by
  constructor
  · exact mem_frames_of_open
  · rintro ⟨n, hn⟩
    obtain ⟨inner, g, outer, hgs, ho⟩ := Stem.mem_frames.mp hn
    obtain ⟨rfl, rfl, rfl⟩ := Opened.mk.inj ho
    -- From where the container starts on, the bytes are those of the stems from there inwards.
    have hrender : p.render = (Ty.renderAll p.types ++ Stem.renderAll outer) ++
        Stem.renderAll (inner ++ [g]) := by
      rw [render, hgs, List.append_cons, Stem.renderAll_append, List.append_assoc]
    have hlen : (Ty.renderAll p.types).length + (Stem.renderAll outer).length =
        (Ty.renderAll p.types ++ Stem.renderAll outer).length := List.length_append.symm
    have hs := p.sound
    rw [hgs] at hs
    rw [hlen, hrender]
    refine ⟨?_, ?_⟩
    · rw [List.getElem?_append_right (Nat.le_refl _), Nat.sub_self, Stem.renderAll_append,
        Stem.renderAll, Stem.render_eq_types]
      rfl
    · intro e
      rw [List.drop_left]
      exact Stem.not_prefix (Stem.sound_from hs) (by simp) e

/-- The innermost container of the state is the innermost one, and has as many types as are counted. -/
theorem innermost (p : Progress limit) {n : Nat} {outer : List Opened}
    (h : p.nest.opened = ⟨x, q, n⟩ :: outer) :
    Innermost p.render x q ∧ HoldsTypes p.render q n := by
  have hopen := p.open_iff.mpr ⟨n, h ▸ List.mem_cons_self⟩
  have hpair := p.pairwise_opened
  refine ⟨⟨hopen, ?_⟩, ?_⟩
  · intro y r hr
    obtain ⟨m, hm⟩ := p.open_iff.mp hr
    rw [h] at hm hpair
    rcases List.mem_cons.mp hm with heq | hm
    · obtain ⟨-, rfl, -⟩ := Opened.mk.inj heq
      exact Nat.le_refl _
    · exact Nat.le_of_lt ((List.pairwise_cons.mp hpair).1 _ hm)
  · cases hstems : p.stems with
    | nil => simp [nest, hstems, Stem.nest, Stem.frames] at h
    | cons g gs =>
      rw [nest, hstems] at h
      obtain ⟨ho, -⟩ := List.cons.inj h
      obtain ⟨-, rfl, rfl⟩ := Opened.mk.inj ho
      refine ⟨g.types, ?_, g.length_types⟩
      have hrender : p.render = (Ty.renderAll p.types ++ Stem.renderAll gs ++
          [g.container.code.byte]) ++ Ty.renderAll g.types := by
        rw [render, hstems, Stem.renderAll, Stem.render_eq_types]
        simp
      rw [hrender]
      exact List.drop_left' (by simp [Nat.add_assoc])

/-- Where nothing is open, no container is. -/
theorem not_open (p : Progress limit) (h : p.nest.opened = []) (x : Container) (q : Nat) :
    ¬ Open p.render x q := by
  intro hopen
  obtain ⟨n, hn⟩ := p.open_iff.mp hopen
  rw [h] at hn
  exact List.not_mem_nil hn

/-- **As many containers of a sort are open as there are stems of that sort.** -/
theorem ncard_open (p : Progress limit) (sort : Container → Bool) :
    {q | ∃ x, sort x = true ∧ Open p.render x q}.ncard = p.stems.countP (sort ·.container) := by
  let opened := (p.nest.opened.filter (sort ·.container)).map (·.start)
  have hset : {q | ∃ x, sort x = true ∧ Open p.render x q} = (opened.toFinset : Set Nat) := by
    ext q
    simp only [Set.mem_ofPred_eq, open_iff, opened, List.coe_toFinset, List.mem_map, List.mem_filter]
    constructor
    · rintro ⟨x, hx, n, hn⟩
      exact ⟨_, ⟨hn, hx⟩, rfl⟩
    · rintro ⟨o, ⟨ho, hsort⟩, rfl⟩
      exact ⟨o.container, hsort, o.held, ho⟩
  have hnodup : opened.Nodup := by
    refine List.Pairwise.map _ ?_ (p.pairwise_opened.filter _)
    intro a b hab
    exact Nat.ne_of_gt hab
  have hcount : opened.length = p.stems.countP (sort ·.container) := by
    rw [List.length_map, ← List.countP_eq_length_filter]
    exact Stem.countP_frames _ _ sort
  rw [hset, Set.ncard_coe_finset, List.toFinset_card_of_nodup hnodup, hcount]

end Progress

end DBusTypes
