import DBusTypes.Nest
import DBusTypes.Grammar

/-!
# The beginning of a type

While a type is read, each container that is open has an opening byte and the types that came after
it. A *stem* is that much of a container, as a piece of a tree that is not finished yet. A list of
stems, innermost first, is the beginning of a whole type, and it says exactly what a `Nest` has to
be at that point.

* `Stem.renderAll` — the bytes that have been read
* `Stem.nest` — the state that reading them leads to
* `Stem.Sound` — whether they can be the beginning of a type that keeps within a limit
* `Stem.fill` — what there is once the next element is whole
* `Stem.settle_nest` — **counting a whole type is filling the innermost stem with it**
-/

namespace DBusTypes

/-! ## What stands where -/

/-- What matters about an element for where it may stand. -/
inductive Kind where
  | basic
  | other
  | entry
  deriving DecidableEq, Repr

namespace Element

/-- The kind of an element. -/
def kind : Element → Kind
  | type (.basic _) => .basic
  | type _ => .other
  | entry .. => .entry

/-- The greatest number of arrays and structs that are open at once in an element. -/
def containers : Element → Nat
  | type t => t.containers
  | entry _ v => v.containers

/-- The greatest number of dict-entries that are open at once in an element. -/
def entries : Element → Nat
  | type t => t.entries
  | entry _ v => v.entries + 1

/-- Whether an element may be all that is read: a dict-entry only where the element of an array is
read, and each depth within its limit. -/
def Allowed (limit : Depth) (scope : Scope) (e : Element) : Prop :=
  (e.kind = .entry → scope = .element) ∧
    e.containers ≤ limit.containers.toNat ∧ e.entries ≤ limit.entries.toNat

theorem kind_ne_entry {e : Element} (h : e.kind ≠ .entry) : ∃ t, e = type t := by
  cases e with
  | type t => exact ⟨t, rfl⟩
  | entry k v => exact absurd rfl h

theorem kind_type_ne_entry (t : Ty) : (type t).kind ≠ .entry := by
  cases t <;> simp [kind]

theorem kind_eq_basic {e : Element} (h : e.kind = .basic) : ∃ k, e = type (.basic k) := by
  cases e with
  | type t => cases t <;> first | exact ⟨_, rfl⟩ | exact absurd h (by simp [kind])
  | entry k v => exact absurd h (by simp [kind])

theorem kind_arrayOf (e : Element) : (type e.arrayOf).kind = .other := by
  cases e <;> rfl

theorem containers_arrayOf (e : Element) : e.arrayOf.containers = e.containers + 1 := by
  cases e <;> simp [arrayOf, containers, Ty.containers]

theorem entries_arrayOf (e : Element) : e.arrayOf.entries = e.entries := by
  cases e <;> simp [arrayOf, entries, Ty.entries]

end Element

/-! ## Stems -/

/-- A container that is open, with the types it has so far. -/
inductive Stem where
  | array
  | struct (fields : List Ty)
  /-- A dict-entry that waits for its key. -/
  | key
  /-- A dict-entry that waits for its value. -/
  | value (key : Basic)
  /-- A dict-entry that waits for its bracket. -/
  | full (key : Basic) (value : Ty)

namespace Stem

/-- The bytes of a stem. -/
def render : Stem → Bytes
  | array => [Code.array.byte]
  | struct ts => Code.struct.byte :: Ty.renderAll ts
  | key => [Code.dictEntry.byte]
  | value k => [Code.dictEntry.byte, (Code.basic k).byte]
  | full k v => Code.dictEntry.byte :: (Code.basic k).byte :: v.render

/-- The bytes of stems, each inside the next. -/
def renderAll : List Stem → Bytes
  | [] => []
  | g :: outer => renderAll outer ++ g.render

/-- The sort of container that a stem begins. -/
def container : Stem → Container
  | array => .array
  | struct _ => .struct
  | key | value _ | full .. => .dictEntry

/-- The kind of element that a stem begins. -/
def kind : Stem → Kind
  | array | struct _ => .other
  | key | value _ | full .. => .entry

/-- How many whole types a stem has. An array is whole as soon as it has one. -/
def held : Stem → Nat
  | array | key => 0
  | struct ts => ts.length
  | value _ => 1
  | full .. => 2

/-- The greatest number of arrays and structs that were open at once in the types of a stem. -/
def containers : Stem → Nat
  | struct ts => Ty.containersAll ts
  | full _ v => v.containers
  | array | key | value _ => 0

/-- The greatest number of dict-entries that were open at once in the types of a stem. -/
def entries : Stem → Nat
  | struct ts => Ty.entriesAll ts
  | full _ v => v.entries
  | array | key | value _ => 0

/-- The number of arrays and structs among stems. -/
def openContainers (gs : List Stem) : Nat := gs.countP (·.container != .dictEntry)

/-- The number of dict-entries among stems. -/
def openEntries (gs : List Stem) : Nat := gs.countP (·.container == .dictEntry)

/-- Whether an element of some kind may come next, inside the innermost of some stems. -/
def Takes (scope : Scope) : List Stem → Kind → Prop
  | [], k => k = .entry → scope = .element
  | array :: _, _ => True
  | struct _ :: _, k | value _ :: _, k => k ≠ .entry
  | key :: _, k => k = .basic
  | full .. :: _, _ => False

/-- Whether depths of `c` and `e` more, inside some stems, keep within a limit. -/
def Room (limit : Depth) (gs : List Stem) (c e : Nat) : Prop :=
  openContainers gs + c ≤ limit.containers.toNat ∧ openEntries gs + e ≤ limit.entries.toNat

/-- Whether stems are the beginning of a type within a limit: each stands where it may, and what it
has keeps within the limit there. -/
def Sound (limit : Depth) (scope : Scope) : List Stem → Prop
  | [] => True
  | g :: outer =>
    Takes scope outer g.kind ∧ Room limit (g :: outer) g.containers g.entries ∧
      Sound limit scope outer

/-! ## The state of reading -/

/-- The containers that are open, where the first stem starts at `base`. -/
def frames (base : Nat) : List Stem → List Opened
  | [] => []
  | g :: outer => ⟨g.container, base + (renderAll outer).length, g.held⟩ :: frames base outer

/-- How much is open. -/
def depth (gs : List Stem) : Depth := ⟨.ofNat (openContainers gs), .ofNat (openEntries gs)⟩

/-- The state that reading some stems leads to. -/
def nest (base : Nat) (gs : List Stem) : Nest := ⟨frames base gs, depth gs⟩

theorem nest_nil (base : Nat) : nest base [] = .start := rfl

theorem openContainers_container {g : Stem} (outer : List Stem) (h : g.container ≠ .dictEntry) :
    openContainers (g :: outer) = openContainers outer + 1 ∧
      openEntries (g :: outer) = openEntries outer := by
  simp [openContainers, openEntries, h]

theorem openContainers_entry {g : Stem} (outer : List Stem) (h : g.container = .dictEntry) :
    openContainers (g :: outer) = openContainers outer ∧
      openEntries (g :: outer) = openEntries outer + 1 := by
  simp [openContainers, openEntries, h]

theorem room_nil {limit : Depth} {c e : Nat} :
    Room limit [] c e ↔ c ≤ limit.containers.toNat ∧ e ≤ limit.entries.toNat := by
  simp [Room, openContainers, openEntries]

theorem room_container {limit : Depth} {g : Stem} {outer : List Stem} {c e : Nat}
    (h : g.container ≠ .dictEntry) : Room limit (g :: outer) c e ↔ Room limit outer (c + 1) e := by
  obtain ⟨h1, h2⟩ := openContainers_container outer h
  rw [Room, Room, h1, h2, Nat.add_assoc, Nat.add_comm 1 c]

theorem room_entry {limit : Depth} {g : Stem} {outer : List Stem} {c e : Nat}
    (h : g.container = .dictEntry) : Room limit (g :: outer) c e ↔ Room limit outer c (e + 1) := by
  obtain ⟨h1, h2⟩ := openContainers_entry outer h
  rw [Room, Room, h1, h2, Nat.add_assoc, Nat.add_comm 1 e]

theorem room_max {limit : Depth} {gs : List Stem} {c c' e e' : Nat} :
    Room limit gs (max c c') (max e e') ↔ Room limit gs c e ∧ Room limit gs c' e' := by
  simp only [Room]
  omega

theorem room_mono {limit : Depth} {gs : List Stem} {c c' e e' : Nat} (h : Room limit gs c e)
    (hc : c' ≤ c) (he : e' ≤ e) : Room limit gs c' e' :=
  ⟨Nat.le_trans (Nat.add_le_add_left hc _) h.1, Nat.le_trans (Nat.add_le_add_left he _) h.2⟩

/-- There is room for one more field if the fields so far and the new one each have room. -/
theorem room_field {limit : Depth} {ts : List Ty} {t : Ty} {outer : List Stem}
    (hs : Room limit (struct ts :: outer) (Ty.containersAll ts) (Ty.entriesAll ts))
    (ht : Room limit (struct ts :: outer) t.containers t.entries) :
    Room limit outer (Ty.containersAll (ts ++ [t]) + 1) (Ty.entriesAll (ts ++ [t])) := by
  rw [Ty.containersAll_append, Ty.entriesAll_append,
    ← room_container (g := struct ts) (by simp [container]), room_max]
  rw [Ty.containersAll, Ty.entriesAll, Ty.containersAll, Ty.entriesAll, Nat.max_zero, Nat.max_zero]
  exact ⟨hs, ht⟩

theorem ofNat_succ_sub_one (n : Nat) : UInt32.ofNat (n + 1) - 1 = .ofNat n := by
  rw [UInt32.ofNat_add]
  exact UInt32.add_sub_cancel _ _

end Stem

/-! ## Putting an element where it belongs -/

/-- What has been read: a whole element, or only the beginning of one. -/
inductive Reached where
  | whole (e : Element)
  | inside (gs : List Stem)

namespace Reached

/-- The bytes that have been read. -/
def render : Reached → Bytes
  | whole e => e.render
  | inside gs => Stem.renderAll gs

/-- The state that reading them leads to, where they start at `base`. -/
def nest (base : Nat) : Reached → Nest
  | whole _ => .start
  | inside gs => Stem.nest base gs

/-- Whether this can be reached within a limit. -/
def Sound (limit : Depth) (scope : Scope) : Reached → Prop
  | whole e => e.Allowed limit scope
  | inside gs => gs ≠ [] ∧ Stem.Sound limit scope gs

end Reached

namespace Stem

/-- What there is once an element stands in the innermost of some stems. An array is whole then, and
so is an element of what it stands in itself. -/
def fill : List Stem → Element → Reached
  | [], e => .whole e
  | array :: outer, e => fill outer (.type e.arrayOf)
  | struct ts :: outer, .type t => .inside (struct (ts ++ [t]) :: outer)
  | key :: outer, .type (.basic k) => .inside (value k :: outer)
  | value k :: outer, .type t => .inside (full k t :: outer)
  | gs, _ => .inside gs

variable {limit : Depth} {scope : Scope}

/-- An element that may stand in an array makes an array that may stand where that array does. -/
theorem takes_arrayOf {outer : List Stem} (hs : Sound limit scope (array :: outer)) (e : Element) :
    Takes scope outer (Element.type e.arrayOf).kind := by
  rw [Element.kind_arrayOf]
  exact hs.1

/-- Filling the innermost stem appends to the text. -/
theorem render_fill {gs : List Stem} {e : Element} (hs : Sound limit scope gs)
    (h : Takes scope gs e.kind) : (fill gs e).render = renderAll gs ++ e.render := by
  induction gs generalizing e with
  | nil => rfl
  | cons g outer ih =>
    cases g with
    | array =>
      rw [fill, ih hs.2.2 (takes_arrayOf hs e), renderAll, render, Element.render,
        Element.render_arrayOf, List.append_assoc]
      rfl
    | struct ts =>
      obtain ⟨t, rfl⟩ := Element.kind_ne_entry h
      simp [fill, Reached.render, renderAll, render, Ty.renderAll_append, Ty.renderAll,
        Element.render]
    | key =>
      obtain ⟨k, rfl⟩ := Element.kind_eq_basic h
      simp [fill, Reached.render, renderAll, render, Element.render, Ty.render]
    | value k =>
      obtain ⟨t, rfl⟩ := Element.kind_ne_entry h
      simp [fill, Reached.render, renderAll, render, Element.render]
    | full k v => exact absurd h id

/-- Filling the innermost stem keeps within a limit, if there is room for the element. -/
theorem sound_fill {gs : List Stem} {e : Element} (hs : Sound limit scope gs)
    (h : Takes scope gs e.kind) (hr : Room limit gs e.containers e.entries) :
    (fill gs e).Sound limit scope := by
  induction gs generalizing e with
  | nil => exact ⟨h, room_nil.mp hr⟩
  | cons g outer ih =>
    obtain ⟨hk, hroom, ho⟩ := hs
    cases g with
    | array =>
      refine ih ho (takes_arrayOf ⟨hk, hroom, ho⟩ e) ?_
      rw [Element.containers, Element.entries, Element.containers_arrayOf, Element.entries_arrayOf]
      exact (room_container (by decide)).mp hr
    | struct ts =>
      obtain ⟨t, rfl⟩ := Element.kind_ne_entry h
      have hc : (struct (ts ++ [t])).container ≠ .dictEntry := by simp [container]
      exact ⟨by simp, hk, (room_container hc).mpr (room_field hroom hr), ho⟩
    | key =>
      obtain ⟨k, rfl⟩ := Element.kind_eq_basic h
      exact ⟨by simp, hk, hroom, ho⟩
    | value k =>
      obtain ⟨t, rfl⟩ := Element.kind_ne_entry h
      exact ⟨by simp, hk, hr, ho⟩
    | full k v => exact absurd h id

/-- **Counting a whole type is filling the innermost stem with it.** -/
theorem settle_nest {gs : List Stem} {e : Element} (base : Nat) (hs : Sound limit scope gs)
    (h : Takes scope gs e.kind) :
    Nest.settle (frames base gs) (depth gs) = (fill gs e).nest base := by
  induction gs generalizing e with
  | nil => rfl
  | cons g outer ih =>
    cases g with
    | array =>
      have hd := openContainers_container (g := array) outer (by decide)
      rw [fill, ← ih hs.2.2 (takes_arrayOf hs e), frames, container, Nest.settle, depth, hd.1, hd.2,
        ofNat_succ_sub_one]
      rfl
    | struct ts =>
      obtain ⟨t, rfl⟩ := Element.kind_ne_entry h
      simp [fill, Reached.nest, nest, frames, container, held, Nest.settle, depth, openContainers,
        openEntries]
    | key =>
      obtain ⟨k, rfl⟩ := Element.kind_eq_basic h
      rfl
    | value k =>
      obtain ⟨t, rfl⟩ := Element.kind_ne_entry h
      rfl
    | full k v => exact absurd h id

end Stem

end DBusTypes
