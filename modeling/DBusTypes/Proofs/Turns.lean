import DBusTypes.Proofs.Diagnosis

/-!
# Turn by turn

A type is read in turns, one byte in each. What is open when a turn begins hangs together with the
bytes that were read, and the two depths are the number of containers of their sort, so that a depth
is never counted past its limit nor below zero.

1. The containers that are open at a turn are the stems of the bytes from where the type starts
   (`Turn.exists_stems`).
2. What is known of stems is therefore known of every turn (`Turn.kept`).
3. A byte opens one container or closes some of them, innermost first, and where the depths count what
   is open, each time one of them changes by one (`Nest.Counted.feed`).

* `Turn` — the states in which the reading of a type takes its bytes
* `Nest.Kept` — what is so at every turn
* `turn_invariant` — **every turn keeps the depths and the order of what is open**
-/

namespace DBusTypes

/-- A turn in the reading of a type that starts at offset `start`: the state, and the offset of the
byte that comes next. Where nothing is open after a byte, the type is whole and there is no other
turn. -/
inductive Turn (limit : Depth) (scope : Scope) (text : Bytes) (start : Nat) : Nest → Nat → Prop
  | first (h : start < text.length) : Turn limit scope text start .start start
  | next {s s' : Nest} {pos : Nat} {b : UInt8} (h : Turn limit scope text start s pos)
      (hb : text[pos]? = some b) (hfeed : s.feed limit scope pos b = .ok s')
      (hopen : s'.opened ≠ []) : Turn limit scope text start s' (pos + 1)

/-! ## What is so at a turn -/

namespace Nest

/-- Whether the depths are the number of containers that are open, by sort. -/
def Counted (s : Nest) : Prop :=
  ∀ n : Nesting, (n.limit s.depth).toNat = s.opened.countP (n.counts ·.container)

/-- What is so when a turn begins, in a text that is read from offset `start` up to `pos`. -/
structure Kept (limit : Depth) (scope : Scope) (text : Bytes) (start pos : Nat) (s : Nest) :
    Prop where
  counted : s.Counted
  within : ∀ n : Nesting, n.limit s.depth ≤ n.limit limit
  /-- Further out, containers start earlier. -/
  ordered : s.opened.Pairwise fun a b => b.start < a.start
  /-- Each container starts among the bytes that were read, at its code. -/
  starts : ∀ o ∈ s.opened,
    start ≤ o.start ∧ o.start < pos ∧ text[o.start]? = some o.container.code.byte
  /-- A dict-entry is directly inside an array, or it is all that is read. -/
  entry_stands : ∀ inner o outer, s.opened = inner ++ o :: outer → o.container = .dictEntry →
    (outer = [] ∧ scope = .element) ∨ ∃ a outer', outer = a :: outer' ∧ a.container = .array
  /-- A dict-entry that something is open in has its key and no more. -/
  entry_inside : ∀ i inner o outer, s.opened = i :: inner ++ o :: outer →
    o.container = .dictEntry → o.held = 1
  entry_held : ∀ o ∈ s.opened, o.container = .dictEntry → o.held ≤ 2
  /-- An array is innermost right behind its marker. -/
  array_innermost : (∃ o outer, s.opened = o :: outer ∧ o.container = .array) ↔
    start < pos ∧ Follows text pos Code.array.byte
  array_start : ∀ o outer, s.opened = o :: outer → o.container = .array → pos = o.start + 1
  /-- Something is open from the first byte on. -/
  nothing_open : s.opened = [] ↔ pos = start

end Nest

/-! ## The stems of a turn -/

namespace Stem

variable {limit : Depth} {scope : Scope} {base : Nat} {gs : List Stem}

theorem counted_nest (hs : Sound limit scope gs) : (nest base gs).Counted := by
  obtain ⟨hc, he⟩ := toNat_depth hs
  intro n
  show _ = (frames base gs).countP _
  rw [countP_frames]
  cases n with
  | arrayOrStruct => exact hc
  | dictEntry => exact he

theorem within_nest (hs : Sound limit scope gs) (n : Nesting) :
    n.limit (nest base gs).depth ≤ n.limit limit := by
  obtain ⟨hc, he⟩ := toNat_depth hs
  obtain ⟨hroom, hroom'⟩ := room_zero hs
  rw [UInt32.le_iff_toNat_le]
  cases n with
  | arrayOrStruct => exact hc.trans_le hroom
  | dictEntry => exact he.trans_le hroom'

/-- A container starts where its code is. -/
theorem getElem?_start {text rest : Bytes} {start : Nat} {o : Opened}
    (htext : text.drop start = renderAll gs ++ rest) (ho : o ∈ frames start gs) :
    text[o.start]? = some o.container.code.byte := by
  obtain ⟨inner, g, outer, rfl, rfl⟩ := mem_frames.mp ho
  rw [← List.getElem?_drop, htext, renderAll_append, renderAll, render_eq_types]
  simp

/-- A dict-entry stands directly in an array, or there is nothing outside of it. -/
theorem takes_entry (h : Takes scope gs .entry) :
    (gs = [] ∧ scope = .element) ∨ ∃ outer, gs = array :: outer := by
  cases gs with
  | nil => exact Or.inl ⟨rfl, h rfl⟩
  | cons g outer =>
    cases g with
    | array => exact Or.inr ⟨outer, rfl⟩
    | struct ts | key | value k | full k v => simp [Takes] at h

/-- Inside a dict-entry something can be open only as its value. -/
theorem held_of_takes {g : Stem} {outer : List Stem} {i : Stem}
    (h : Takes scope (g :: outer) i.kind) (hg : g.container = .dictEntry) : g.held = 1 := by
  cases g with
  | array | struct ts => simp [container] at hg
  | key => cases i <;> simp [Takes, kind] at h
  | value k => rfl
  | full k v => simp [Takes] at h

theorem sound_append {inner : List Stem} (hs : Sound limit scope (inner ++ gs)) :
    Sound limit scope gs := by
  induction inner with
  | nil => exact hs
  | cons g inner ih => exact ih hs.2.2

/-- The containers of a state split as its stems do. -/
theorem exists_of_frames_eq {inner outer : List Opened} {o : Opened}
    (h : frames base gs = inner ++ o :: outer) :
    ∃ is g os, gs = is ++ g :: os ∧ outer = frames base os ∧ o.container = g.container ∧
      o.held = g.held ∧ is.length = inner.length := by
  induction inner generalizing gs with
  | nil =>
    cases gs with
    | nil => simp [frames] at h
    | cons g os =>
      obtain ⟨rfl, rfl⟩ := List.cons.inj h
      exact ⟨[], g, os, rfl, rfl, rfl, rfl, rfl⟩
  | cons i inner ih =>
    cases gs with
    | nil => simp [frames] at h
    | cons g os =>
      obtain ⟨-, h⟩ := List.cons.inj h
      obtain ⟨is, g', os', rfl, hout, hc, hh, hlen⟩ := ih h
      exact ⟨g :: is, g', os', rfl, hout, hc, hh, by rw [List.length_cons, hlen, List.length_cons]⟩

theorem render_ne_nil (g : Stem) : g.render ≠ [] := by
  rw [render_eq_types]
  exact List.cons_ne_nil _ _

theorem renderAll_eq_nil_iff : renderAll gs = [] ↔ gs = [] := by
  cases gs with
  | nil => simp [renderAll]
  | cons g outer => simp [renderAll, render_ne_nil]

/-- The innermost stem is that of an array just if the bytes end in the marker of one. -/
theorem array_iff_follows : (∃ outer, gs = array :: outer) ↔
    Follows (renderAll gs) (renderAll gs).length Code.array.byte := by
  constructor
  · rintro ⟨outer, rfl⟩
    refine ⟨(renderAll outer).length, length_renderAll_cons array outer, ?_⟩
    rw [renderAll, List.getElem?_append_right (Nat.le_refl _), Nat.sub_self]
    rfl
  · rintro ⟨q, hq, hc⟩
    have hopen : Open (Ty.renderAll [] ++ renderAll gs) .array q := open_array_of_follows hq hc
    obtain ⟨n, hn⟩ := Progress.mem_frames_of_open hopen
    cases gs with
    | nil => exact absurd hn List.not_mem_nil
    | cons g outer =>
      rcases List.mem_cons.mp hn with ho | hn
      · obtain ⟨hg, -, -⟩ := Opened.mk.inj ho
        cases g with
        | array => exact ⟨outer, rfl⟩
        | struct ts | key | value k | full k v => simp [container] at hg
      · -- A container further out starts too early to be at the last byte.
        have hlt := start_lt_of_mem_frames hn
        have hpos := List.length_pos_iff.mpr g.render_ne_nil
        rw [length_renderAll_cons] at hq
        simp only [Ty.renderAll, List.length_nil] at hlt
        omega

/-- An array is innermost in the state just if the innermost stem is one. -/
theorem exists_array_iff : (∃ o outer, frames base gs = o :: outer ∧ o.container = .array) ↔
    ∃ outer, gs = array :: outer := by
  cases gs with
  | nil => simp [frames]
  | cons g outer => cases g <;> simp [frames, container]

/-- The byte in front of a place inside the bytes that were read is one of them. -/
theorem follows_iff {text rest u : Bytes} {start : Nat} {c : UInt8}
    (htext : text.drop start = u ++ rest) :
    start < start + u.length ∧ Follows text (start + u.length) c ↔ Follows u u.length c := by
  have hget : ∀ q < u.length, text[start + q]? = u[q]? := by
    intro q hq
    rw [← List.getElem?_drop, htext, List.getElem?_append_left hq]
  constructor
  · rintro ⟨hlt, q, hq, hc⟩
    obtain ⟨q, rfl⟩ := Nat.exists_eq_add_of_le (show start ≤ q by omega)
    exact ⟨q, by omega, by rw [← hget q (by omega)]; exact hc⟩
  · rintro ⟨q, hq, hc⟩
    exact ⟨by omega, start + q, by omega, by rw [hget q (by omega)]; exact hc⟩

end Stem

namespace Turn

variable {limit : Depth} {scope : Scope} {text : Bytes} {start pos : Nat} {s : Nest}

/-- **What is open at a turn are the stems of the bytes that were read.** -/
theorem exists_stems (h : Turn limit scope text start s pos) :
    ∃ gs rest, Stem.Sound limit scope gs ∧ s = Stem.nest start gs ∧
      text.drop start = Stem.renderAll gs ++ rest ∧ pos = start + (Stem.renderAll gs).length := by
  induction h with
  | first h => exact ⟨[], text.drop start, trivial, rfl, rfl, rfl⟩
  | @next s s' pos b h hb hfeed hopen ih =>
    obtain ⟨gs, rest, hs, rfl, htext, rfl⟩ := ih
    rw [← List.getElem?_drop, htext, List.getElem?_append_right (Nat.le_refl _), Nat.sub_self] at hb
    obtain ⟨rest, rfl⟩ : ∃ r, rest = b :: r := by
      cases rest with
      | nil => simp at hb
      | cons c r => exact ⟨r, by rw [Option.some.inj hb]⟩
    obtain ⟨r, hr, hrender, rfl⟩ := Stem.feed_ok hs rfl hfeed
    cases r with
    | whole e => exact absurd rfl hopen
    | inside gs' =>
      have hgs : Stem.renderAll gs' = Stem.renderAll gs ++ [b] := hrender
      refine ⟨gs', rest, hr.2, rfl, ?_, ?_⟩
      · rw [htext, hgs, List.append_assoc]
        rfl
      · rw [hgs, List.length_append]
        rfl

theorem start_lt (h : Turn limit scope text start s pos) : start < text.length := by
  induction h with
  | first h => exact h
  | next _ _ _ _ ih => exact ih

/-- **What is so at every turn.** -/
theorem kept (h : Turn limit scope text start s pos) : s.Kept limit scope text start pos := by
  obtain ⟨gs, rest, hs, rfl, htext, rfl⟩ := h.exists_stems
  refine ⟨Stem.counted_nest hs, Stem.within_nest hs, Stem.pairwise_frames start gs, ?_, ?_, ?_, ?_,
    ?_, ?_, ?_⟩
  · intro o ho
    refine ⟨?_, Stem.start_lt_of_mem_frames ho, Stem.getElem?_start htext ho⟩
    obtain ⟨inner, g, outer, -, rfl⟩ := Stem.mem_frames.mp ho
    exact Nat.le_add_right _ _
  · intro inner o outer hopen ho
    obtain ⟨is, g, os, rfl, rfl, hc, -, -⟩ := Stem.exists_of_frames_eq hopen
    rw [ho] at hc
    have htakes : Stem.Takes scope os .entry := by
      have hk := (Stem.sound_append hs).1
      cases g with
      | array | struct ts => simp [Stem.container] at hc
      | key | value k | full k v => exact hk
    rcases Stem.takes_entry htakes with ⟨rfl, hscope⟩ | ⟨os', rfl⟩
    · exact Or.inl ⟨rfl, hscope⟩
    · exact Or.inr ⟨_, _, rfl, rfl⟩
  · intro i inner o outer hopen ho
    obtain ⟨is, g, os, rfl, -, hc, hheld, hlen⟩ := Stem.exists_of_frames_eq hopen
    obtain ⟨is, j, rfl⟩ : ∃ is' j, is = is' ++ [j] :=
      ⟨_, _, (List.dropLast_append_getLast (List.ne_nil_of_length_eq_add_one hlen)).symm⟩
    rw [List.append_assoc] at hs
    rw [hheld]
    exact Stem.held_of_takes (Stem.sound_append hs).1 (hc ▸ ho)
  · intro o ho hc
    obtain ⟨inner, g, outer, -, rfl⟩ := Stem.mem_frames.mp ho
    exact g.held_le.2 hc
  · rw [Stem.follows_iff htext]
    exact Stem.exists_array_iff.trans Stem.array_iff_follows
  · intro o outer hopen hc
    obtain ⟨os, rfl⟩ := Stem.exists_array_iff.mp ⟨o, outer, hopen, hc⟩
    obtain ⟨rfl, -⟩ := List.cons.inj hopen
    rw [Stem.length_renderAll_cons, ← Nat.add_assoc]
    rfl
  · have hnil : (Stem.nest start gs).opened = [] ↔ gs = [] := by
      cases gs <;> simp [Stem.nest, Stem.frames]
    rw [hnil, ← Stem.renderAll_eq_nil_iff, ← List.length_eq_zero_iff]
    omega

/-- **Reading from a turn on gives what reading the type gives.** -/
theorem readAt_eq {r : TypeReader} (h : Turn r.limit r.scope text start s pos) :
    r.readAt text start = ({ r with last := (s.run r.limit r.scope pos (text.drop pos)).1 },
      (s.run r.limit r.scope pos (text.drop pos)).2.map fun p => some p.1) := by
  induction h with
  | first h =>
    have hne : (text.drop start).isEmpty = false := by
      rw [List.isEmpty_eq_false_iff, Ne, List.drop_eq_nil_iff]
      omega
    rw [TypeReader.readAt, TypeReader.read, hne]
    cases Nest.start.run r.limit r.scope start (text.drop start) with
    | mk last res => cases res <;> rfl
  | @next s s' pos b h hb hfeed hopen ih =>
    have hdrop : text.drop pos = b :: text.drop (pos + 1) := by
      obtain ⟨hlt, rfl⟩ := List.getElem?_eq_some_iff.mp hb
      exact List.drop_eq_getElem_cons hlt
    have hempty : s'.opened.isEmpty = false := by simpa using hopen
    rw [ih, hdrop, Nest.run_cons_ok hfeed, Nest.resume, hempty]
    rfl

end Turn

/-! ## How the depths move -/

/-- The depth that a container counts for. -/
def Container.nesting : Container → Nesting
  | .array | .struct => .arrayOrStruct
  | .dictEntry => .dictEntry

namespace Nesting

/-- The depths with one more container open. -/
def more : Nesting → Depth → Depth
  | arrayOrStruct, d => { d with containers := d.containers + 1 }
  | dictEntry, d => { d with entries := d.entries + 1 }

/-- The depths with one container less. -/
def less : Nesting → Depth → Depth
  | arrayOrStruct, d => { d with containers := d.containers - 1 }
  | dictEntry, d => { d with entries := d.entries - 1 }

theorem counts_iff (n : Nesting) (x : Container) : n.counts x = true ↔ n = x.nesting := by
  cases n <;> cases x <;> decide

theorem limit_less_self (n : Nesting) (d : Depth) : n.limit (n.less d) = n.limit d - 1 := by
  cases n <;> rfl

theorem limit_less_of_ne {n m : Nesting} (h : n ≠ m) (d : Depth) :
    n.limit (m.less d) = n.limit d := by
  cases n <;> cases m <;> first | rfl | exact absurd rfl h

/-- A depth below a limit can be counted one further. -/
theorem toNat_limit_more {n : Nesting} {d limit : Depth} (h : n.limit d < n.limit limit) :
    (n.limit (n.more d)).toNat = (n.limit d).toNat + 1 := by
  have hmore : n.limit (n.more d) = n.limit d + 1 := by
    cases n <;> rfl
  have hlt := UInt32.lt_iff_toNat_lt.mp h
  have hlimit := (n.limit limit).toNat_lt
  rw [hmore, UInt32.toNat_add]
  exact Nat.mod_eq_of_lt (show (n.limit d).toNat + 1 < _ by omega)

end Nesting

namespace Nest

/-- Whether a byte at `offset` opens a container, at a depth that is below its limit, so that one more
can be counted. -/
def Opens (limit : Depth) (offset : Nat) (s s' : Nest) : Prop :=
  ∃ x : Container, x.nesting.limit s.depth < x.nesting.limit limit ∧
    s' = ⟨⟨x, offset, 0⟩ :: s.opened, x.nesting.more s.depth⟩ ∧
    (x.nesting.limit s'.depth).toNat = (x.nesting.limit s.depth).toNat + 1

/-- Whether containers are closed, innermost first, each at a depth that is not zero, so that one less
can be counted. -/
inductive Closes : Nest → Nest → Prop
  | refl (s : Nest) : Closes s s
  | close {o : Opened} {outer : List Opened} {d : Depth} {s : Nest}
      (hpos : 0 < o.container.nesting.limit d)
      (hrest : Closes ⟨outer, o.container.nesting.less d⟩ s) : Closes ⟨o :: outer, d⟩ s

/-- The state with one more type in the innermost container. -/
def count (s : Nest) : Nest :=
  match s.opened with
  | [] => s
  | o :: outer => { s with opened := { o with held := o.held + 1 } :: outer }

variable {limit : Depth} {scope : Scope} {offset : Nat} {s s' : Nest} {o : Opened}
  {outer : List Opened} {d : Depth}

/-- Where the depths count what is open, the innermost container can be taken from its depth. -/
theorem Counted.close (h : Counted ⟨o :: outer, d⟩) :
    0 < o.container.nesting.limit d ∧ Counted ⟨outer, o.container.nesting.less d⟩ := by
  have hn : ∀ n : Nesting, (n.limit d).toNat = outer.countP (n.counts ·.container) +
      if n.counts o.container then 1 else 0 := by
    intro n
    rw [h n, List.countP_cons]
  have hpos : 0 < o.container.nesting.limit d := by
    have hself := hn o.container.nesting
    rw [if_pos ((Nesting.counts_iff _ _).mpr rfl)] at hself
    rw [UInt32.lt_iff_toNat_lt, hself]
    exact Nat.succ_pos _
  refine ⟨hpos, ?_⟩
  intro n
  by_cases hc : n = o.container.nesting
  · have hself := hn n
    rw [if_pos ((Nesting.counts_iff _ _).mpr hc)] at hself
    subst hc
    show (Nesting.limit _ (Nesting.less _ d)).toNat = _
    have hone : 1 ≤ o.container.nesting.limit d := by
      rw [UInt32.le_iff_toNat_le, hself]
      exact Nat.succ_pos _
    rw [Nesting.limit_less_self, UInt32.toNat_sub_of_le _ _ hone, hself]
    rfl
  · have hother := hn n
    rw [if_neg fun h => hc ((Nesting.counts_iff _ _).mp h)] at hother
    show (n.limit (Nesting.less _ d)).toNat = _
    rw [Nesting.limit_less_of_ne hc, hother]
    rfl

/-- Counting a whole type closes the arrays that waited for it. -/
theorem Counted.settle {opened : List Opened} (h : Counted ⟨opened, d⟩) :
    ∃ t, Closes ⟨opened, d⟩ t ∧ Nest.settle opened d = t.count := by
  induction opened generalizing d with
  | nil => exact ⟨_, .refl _, rfl⟩
  | cons o outer ih =>
    obtain ⟨container, start, held⟩ := o
    cases container with
    | array =>
      obtain ⟨hpos, hcounted⟩ := h.close
      obtain ⟨t, hcloses, ht⟩ := ih hcounted
      exact ⟨t, .close hpos hcloses, ht⟩
    | struct | dictEntry => exact ⟨_, .refl _, rfl⟩

/-- A container that is closed is a whole type where it stands. -/
theorem Counted.close_settle (h : Counted ⟨o :: outer, d⟩) :
    ∃ t, Closes ⟨o :: outer, d⟩ t ∧
      Nest.settle outer (o.container.nesting.less d) = t.count := by
  obtain ⟨hpos, hcounted⟩ := h.close
  obtain ⟨t, hcloses, ht⟩ := hcounted.settle
  exact ⟨t, .close hpos hcloses, ht⟩

theorem Counted.closeStruct {bracket : UInt8} (hs : s.Counted)
    (h : s.closeStruct bracket offset = .ok s') : ∃ t, s.Closes t ∧ s' = t.count := by
  obtain ⟨opened, d⟩ := s
  unfold Nest.closeStruct at h
  split at h
  · simp at h
  · next start held outer hopen =>
    obtain rfl : opened = ⟨.struct, start, held⟩ :: outer := hopen
    split at h
    · simp at h
    · obtain rfl := Except.ok.inj h
      exact hs.close_settle
  · simp at h

theorem Counted.closeEntry {bracket : UInt8} (hs : s.Counted)
    (h : s.closeEntry bracket offset = .ok s') : ∃ t, s.Closes t ∧ s' = t.count := by
  obtain ⟨opened, d⟩ := s
  unfold Nest.closeEntry at h
  split at h
  · simp at h
  · next start held outer hopen =>
    obtain rfl : opened = ⟨.dictEntry, start, held⟩ :: outer := hopen
    split at h
    · simp at h
    · split at h
      · simp at h
      · obtain rfl := Except.ok.inj h
        exact hs.close_settle
  · simp at h

theorem opens_of_enter {x : Container} (hx : x ≠ .dictEntry)
    (h : s.enter limit x offset = .ok s') : s.Opens limit offset s' := by
  have hn : x.nesting = .arrayOrStruct := by
    cases x <;> first | rfl | exact absurd rfl hx
  unfold enter at h
  split at h
  · simp at h
  · next hroom =>
    obtain rfl := Except.ok.inj h
    have hlt : Nesting.arrayOrStruct.limit s.depth < Nesting.arrayOrStruct.limit limit :=
      UInt32.not_le.mp hroom
    refine ⟨x, ?_, ?_, ?_⟩ <;> rw [hn]
    · exact hlt
    · rfl
    · exact Nesting.toNat_limit_more hlt

theorem opens_of_enterEntry (h : s.enterEntry limit offset = .ok s') :
    s.Opens limit offset s' := by
  unfold enterEntry at h
  split at h
  · simp at h
  · next hroom =>
    obtain rfl := Except.ok.inj h
    have hlt : Nesting.dictEntry.limit s.depth < Nesting.dictEntry.limit limit :=
      UInt32.not_le.mp hroom
    exact ⟨.dictEntry, hlt, rfl, Nesting.toNat_limit_more hlt⟩

/-- **A byte that is taken moves the depths by one container at a time**: it opens one where there is
room for it, or it closes some and counts a whole type in the innermost one that is left. -/
theorem Counted.feed {b : UInt8} (hs : s.Counted) (h : s.feed limit scope offset b = .ok s') :
    s.Opens limit offset s' ∨ ∃ t, s.Closes t ∧ s' = t.count := by
  unfold Nest.feed at h
  cases hb : Code.ofByte? b with
  | some c =>
    rw [hb] at h
    cases c with
    | array => exact Or.inl (opens_of_enter (x := .array) (by decide) (seq_eq_ok.mp h).2)
    | struct => exact Or.inl (opens_of_enter (x := .struct) (by decide) (seq_eq_ok.mp h).2)
    | dictEntry =>
      simp only at h
      split at h
      · exact Or.inl (opens_of_enterEntry h)
      · simp at h
    | basic k | variant =>
      right
      obtain rfl := Except.ok.inj (seq_eq_ok.mp h).2
      exact hs.settle
  | none =>
    right
    rw [hb] at h
    simp only at h
    split at h
    · exact hs.closeStruct h
    · split at h
      · exact hs.closeEntry h
      · simp at h

end Nest

/-- **Every turn keeps the depths and the order of what is open.** Whatever the bytes are, and whatever
a reader was left with by an earlier type, at each turn of reading a type:

* what `Nest.Kept` says is so, of the depths and their limits, of where the containers start, of where
  dict-entries stand and what they hold, and of when an array is innermost;
* the turn is one of this reading, which gives what it gives from here on;
* whatever byte comes, taking it counts one container at a time, and no depth is counted past what a
  number can hold nor below zero;
* where the text ends, something is open, which is what is reported then. -/
theorem turn_invariant (r : TypeReader) (text : Bytes) (start pos : Nat) (s : Nest)
    (h : Turn r.limit r.scope text start s pos) :
    s.Kept r.limit r.scope text start pos ∧
    r.readAt text start = ({ r with last := (s.run r.limit r.scope pos (text.drop pos)).1 },
      (s.run r.limit r.scope pos (text.drop pos)).2.map fun p => some p.1) ∧
    (∀ b s', s.feed r.limit r.scope pos b = .ok s' →
      s.Opens r.limit pos s' ∨ ∃ t, s.Closes t ∧ s' = t.count) ∧
    (text.length ≤ pos → ∃ o outer, s.opened = o :: outer ∧ s.unfinished =
      ⟨o.start, if o.container = .array then .danglingArray else .unterminated⟩) := by
  have hkept := h.kept
  refine ⟨hkept, h.readAt_eq, fun b s' => hkept.counted.feed, ?_⟩
  intro hend
  have hstart := h.start_lt
  cases hopen : s.opened with
  | nil =>
    have hpos := hkept.nothing_open.mp hopen
    omega
  | cons o outer =>
    refine ⟨o, outer, rfl, ?_⟩
    obtain ⟨container, q, held⟩ := o
    rw [Nest.unfinished, hopen]
    cases container <;> rfl

/-- After `a{s(i` behind a first type, a struct with one field is open, in the value of a dict-entry,
in an array. -/
theorem turn_invariant_field :
    Turn Limits.standard.depth .sequence [0x79, 0x61, 0x7b, 0x73, 0x28, 0x69] 1
        ⟨[⟨.struct, 4, 1⟩, ⟨.dictEntry, 2, 1⟩, ⟨.array, 1, 0⟩], ⟨2, 1⟩⟩ 6 ∧
      Nest.Kept Limits.standard.depth .sequence [0x79, 0x61, 0x7b, 0x73, 0x28, 0x69] 1 6
        ⟨[⟨.struct, 4, 1⟩, ⟨.dictEntry, 2, 1⟩, ⟨.array, 1, 0⟩], ⟨2, 1⟩⟩ := by
  have h : Turn Limits.standard.depth .sequence [0x79, 0x61, 0x7b, 0x73, 0x28, 0x69] 1
      ⟨[⟨.struct, 4, 1⟩, ⟨.dictEntry, 2, 1⟩, ⟨.array, 1, 0⟩], ⟨2, 1⟩⟩ 6 := by
    have h1 : Turn Limits.standard.depth .sequence [0x79, 0x61, 0x7b, 0x73, 0x28, 0x69] 1 .start 1 :=
      .first (by decide)
    have h2 := h1.next (b := 0x61) rfl rfl (by decide)
    have h3 := h2.next (b := 0x7b) rfl rfl (by decide)
    have h4 := h3.next (b := 0x73) rfl rfl (by decide)
    have h5 := h4.next (b := 0x28) rfl rfl (by decide)
    exact h5.next (b := 0x69) rfl rfl (by decide)
  exact ⟨h, (turn_invariant (.new Limits.standard.depth .sequence) _ 1 6 _ h).1⟩

end DBusTypes
