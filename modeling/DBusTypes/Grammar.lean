import DBusTypes.Bytes
import DBusTypes.Code
import DBusTypes.Limits

/-!
# The grammar of types

What a signature is, said without reading one: the text of a list of types.

## The grammar

* a *type* is a basic code, `v`, an array `a…` of an element, or a struct `(…)` of one or more types
* an *element* is a type, or a dict-entry `{…}` of a basic code and a type
* a signature is zero or more types, one after the other

A dict-entry is the element of an array and nothing else, so an array of dict-entries is a form of
type of its own here, the dictionary.

## Main definitions

* `Ty`, `Element` — the types and the elements of arrays, as trees
* `Ty.render`, `Ty.renderAll`, `Element.render` — their texts
* `Ty.containers`, `Ty.entries` — how much is open at once, at most, in the text of a type
* `Ty.Fit` — whether that is within a limit
-/

namespace DBusTypes

/-- A single complete type. -/
inductive Ty where
  | basic (b : Basic)
  | variant
  | array (element : Ty)
  /-- An array of dict-entries. -/
  | dict (key : Basic) (value : Ty)
  | struct (first : Ty) (rest : List Ty)

/-- The element of an array. -/
inductive Element where
  | type (t : Ty)
  | entry (key : Basic) (value : Ty)

/-! ## Texts -/

namespace Ty

mutual

/-- The text of a type. -/
def render : Ty → Bytes
  | basic b => [(Code.basic b).byte]
  | variant => [Code.variant.byte]
  | array t => Code.array.byte :: render t
  | dict k v =>
    Code.array.byte :: Code.dictEntry.byte :: (Code.basic k).byte :: (render v ++ [entryEnd])
  | struct t ts => Code.struct.byte :: (render t ++ (renderAll ts ++ [structEnd]))

/-- The texts of several types, one after the other. -/
def renderAll : List Ty → Bytes
  | [] => []
  | t :: ts => render t ++ renderAll ts

end

/-- The text of a struct is its fields between brackets. -/
theorem render_struct (t : Ty) (ts : List Ty) :
    (struct t ts).render = Code.struct.byte :: (renderAll (t :: ts) ++ [structEnd]) := by
  rw [render, renderAll, List.append_assoc]

theorem renderAll_append (ts us : List Ty) : renderAll (ts ++ us) = renderAll ts ++ renderAll us := by
  induction ts with
  | nil => rfl
  | cons t ts ih => rw [List.cons_append, renderAll, renderAll, ih, List.append_assoc]

end Ty

namespace Element

/-- The text of an element. -/
def render : Element → Bytes
  | type t => t.render
  | entry k v => Code.dictEntry.byte :: (Code.basic k).byte :: (v.render ++ [entryEnd])

/-- The array of an element. -/
def arrayOf : Element → Ty
  | type t => .array t
  | entry k v => .dict k v

/-- The text of an array is its marker and the text of its element. -/
theorem render_arrayOf (e : Element) : e.arrayOf.render = Code.array.byte :: e.render := by
  cases e <;> simp [arrayOf, render, Ty.render]

end Element

namespace Ty

/-! ## Depth -/

mutual

/-- The greatest number of arrays and structs that are open at once in the text of a type. -/
def containers : Ty → Nat
  | basic _ | variant => 0
  | array t => containers t + 1
  | dict _ v => containers v + 1
  | struct t ts => max (containers t) (containersAll ts) + 1

/-- The same for several types, one after the other. -/
def containersAll : List Ty → Nat
  | [] => 0
  | t :: ts => max (containers t) (containersAll ts)

end

mutual

/-- The greatest number of dict-entries that are open at once in the text of a type. -/
def entries : Ty → Nat
  | basic _ | variant => 0
  | array t => entries t
  | dict _ v => entries v + 1
  | struct t ts => max (entries t) (entriesAll ts)

/-- The same for several types, one after the other. -/
def entriesAll : List Ty → Nat
  | [] => 0
  | t :: ts => max (entries t) (entriesAll ts)

end

theorem containers_struct (t : Ty) (ts : List Ty) :
    (struct t ts).containers = containersAll (t :: ts) + 1 := by
  rw [containers, containersAll]

theorem entries_struct (t : Ty) (ts : List Ty) : (struct t ts).entries = entriesAll (t :: ts) := by
  rw [entries, entriesAll]

theorem containersAll_append (ts us : List Ty) :
    containersAll (ts ++ us) = max (containersAll ts) (containersAll us) := by
  induction ts with
  | nil => simp [containersAll]
  | cons t ts ih => rw [List.cons_append, containersAll, containersAll, ih, Nat.max_assoc]

theorem entriesAll_append (ts us : List Ty) :
    entriesAll (ts ++ us) = max (entriesAll ts) (entriesAll us) := by
  induction ts with
  | nil => simp [entriesAll]
  | cons t ts ih => rw [List.cons_append, entriesAll, entriesAll, ih, Nat.max_assoc]

/-- Whether types, one after the other, never have more open than a limit allows. -/
def Fit (limit : Depth) (ts : List Ty) : Prop :=
  containersAll ts ≤ limit.containers.toNat ∧ entriesAll ts ≤ limit.entries.toNat

instance (limit : Depth) (ts : List Ty) : Decidable (Fit limit ts) :=
  inferInstanceAs (Decidable (_ ∧ _))

/-- Types fit one after the other if each part of them does: after a whole type nothing is open. -/
theorem fit_append {limit : Depth} {ts us : List Ty} :
    Fit limit (ts ++ us) ↔ Fit limit ts ∧ Fit limit us := by
  simp only [Fit, containersAll_append, entriesAll_append]
  omega

theorem fit_cons {limit : Depth} {t : Ty} {ts : List Ty} :
    Fit limit (t :: ts) ↔ Fit limit [t] ∧ Fit limit ts := @fit_append limit [t] ts

end Ty

end DBusTypes
