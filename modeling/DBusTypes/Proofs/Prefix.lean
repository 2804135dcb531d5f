import DBusTypes.Grammar

/-!
# No type begins another

The text of a type shows where it ends: no type has a text that is the beginning of another type's
text, and so the text of a list of types is the text of no other list.

The code in front of a text says which form the type has. From there on the texts of two types of
that form are compared part by part, each part followed by whatever comes after it.

* `Ty.render_append_inj` — **where two types stand at the front of the same bytes, they are the same**
* `Ty.renderAll_inj` — **a text is the text of one list of types only**
-/

namespace DBusTypes

theorem Code.byte_inj {c d : Code} (h : c.byte = d.byte) : c = d := by
  have hc := ofByte?_byte c
  rw [h, ofByte?_byte] at hc
  exact (Option.some.inj hc).symm

/-- Whether types have ended in front of these bytes: nothing follows, or what no type starts with. -/
def Ended (u : Bytes) : Prop := ∀ b ∈ u.head?, Code.ofByte? b = none

/-! ## The code in front -/

namespace Ty

/-- The code that a type starts with. -/
def code : Ty → Code
  | basic k => .basic k
  | variant => .variant
  | array _ | dict _ _ => .array
  | struct _ _ => .struct

theorem code_ne_dictEntry (t : Ty) : t.code ≠ .dictEntry := by
  cases t <;> simp [code]

end Ty

namespace Element

/-- The code that an element starts with. -/
def code : Element → Code
  | type t => t.code
  | entry _ _ => .dictEntry

theorem code_arrayOf (e : Element) : e.arrayOf.code = .array := by
  cases e <;> rfl

/-- A text starts with its code. -/
theorem exists_render (e : Element) : ∃ r, e.render = e.code.byte :: r := by
  cases e with
  | type t => cases t <;> exact ⟨_, rfl⟩
  | entry k v => exact ⟨_, rfl⟩

theorem render_ne_nil (e : Element) : e.render ≠ [] := by
  obtain ⟨r, hr⟩ := e.exists_render
  rw [hr]
  exact List.cons_ne_nil _ _

/-- An element starts with the code that is in front of its bytes. -/
theorem code_eq_of_cons {e : Element} {c : Code} {u w : Bytes} (h : e.render ++ u = c.byte :: w) :
    e.code = c := by
  obtain ⟨r, hr⟩ := e.exists_render
  rw [hr, List.cons_append] at h
  exact Code.byte_inj (List.cons.inj h).1

/-- Elements at the front of the same bytes start with the same code. -/
theorem code_eq_of_append {e e' : Element} {u u' : Bytes} (h : e.render ++ u = e'.render ++ u') :
    e.code = e'.code := by
  obtain ⟨r', hr'⟩ := e'.exists_render
  rw [hr', List.cons_append] at h
  exact code_eq_of_cons h

/-! ### What the code tells -/

variable {e : Element}

theorem code_eq_basic {k : Basic} (h : e.code = .basic k) : e = type (.basic k) := by
  cases e with
  | type t => cases t <;> simp_all [code, Ty.code]
  | entry k v => simp [code] at h

theorem code_eq_variant (h : e.code = .variant) : e = type .variant := by
  cases e with
  | type t => cases t <;> simp_all [code, Ty.code]
  | entry k v => simp [code] at h

theorem code_eq_array (h : e.code = .array) : ∃ e' : Element, e = type e'.arrayOf := by
  cases e with
  | type t =>
    cases t with
    | array t => exact ⟨type t, rfl⟩
    | dict k v => exact ⟨entry k v, rfl⟩
    | basic k | variant | struct t ts => simp [code, Ty.code] at h
  | entry k v => simp [code] at h

theorem code_eq_struct (h : e.code = .struct) : ∃ t ts, e = type (.struct t ts) := by
  cases e with
  | type t =>
    cases t with
    | struct t ts => exact ⟨t, ts, rfl⟩
    | basic k | variant | array t | dict k v => simp [code, Ty.code] at h
  | entry k v => simp [code] at h

theorem code_eq_dictEntry (h : e.code = .dictEntry) : ∃ k v, e = entry k v := by
  cases e with
  | type t => exact absurd h t.code_ne_dictEntry
  | entry k v => exact ⟨k, v, rfl⟩

/-! ## Part by part -/

/-- Whether no other element stands where this one does, and whether it always ends at the same
byte. -/
def Unique (e : Element) : Prop :=
  ∀ (e' : Element) (u u' : Bytes), e.render ++ u = e'.render ++ u' → e = e' ∧ u = u'

theorem unique_basic (k : Basic) : Unique (type (.basic k)) := by
  intro e' u u' h
  obtain rfl := code_eq_basic (code_eq_of_append h).symm
  exact ⟨rfl, List.append_cancel_left h⟩

theorem unique_variant : Unique (type .variant) := by
  intro e' u u' h
  obtain rfl := code_eq_variant (code_eq_of_append h).symm
  exact ⟨rfl, List.append_cancel_left h⟩

theorem unique_arrayOf (he : e.Unique) : Unique (type e.arrayOf) := by
  intro e' u u' h
  have hc : e'.code = .array := (code_eq_of_append h).symm.trans e.code_arrayOf
  obtain ⟨e', rfl⟩ := code_eq_array hc
  rw [render, render, render_arrayOf, render_arrayOf] at h
  obtain ⟨rfl, hu⟩ := he e' u u' (List.cons.inj h).2
  exact ⟨rfl, hu⟩

theorem unique_entry (k : Basic) {v : Ty} (hv : Unique (type v)) : Unique (entry k v) := by
  intro e' u u' h
  obtain ⟨k', v', rfl⟩ := code_eq_dictEntry (code_eq_of_append h).symm
  simp only [render, List.cons_append, List.append_assoc, List.cons.injEq, true_and] at h
  obtain ⟨hk, h⟩ := h
  obtain ⟨hv', hu⟩ := hv (type v') _ _ h
  obtain rfl : v = v' := type.inj hv'
  obtain rfl : k = k' := Code.basic.inj (Code.byte_inj hk)
  exact ⟨rfl, (List.cons.inj hu).2⟩

/-- An element never stands where types have ended. -/
theorem not_ended (e : Element) (u : Bytes) : ¬ Ended (e.render ++ u) := by
  obtain ⟨r, hr⟩ := e.exists_render
  intro h
  have hb := h e.code.byte (by simp [hr])
  rw [Code.ofByte?_byte] at hb
  exact absurd hb (by simp)

theorem renderAll_unique {ts : List Ty} (h : ∀ t ∈ ts, Unique (type t)) :
    ∀ (ts' : List Ty) (u u' : Bytes), Ended u → Ended u' →
      Ty.renderAll ts ++ u = Ty.renderAll ts' ++ u' → ts = ts' ∧ u = u' := by
  induction ts with
  | nil =>
    intro ts' u u' hu hu' heq
    cases ts' with
    | nil => exact ⟨rfl, heq⟩
    | cons t' ts' =>
      -- One list has ended where the other goes on.
      rw [Ty.renderAll, Ty.renderAll, List.append_assoc] at heq
      rw [List.nil_append] at heq
      exact absurd (heq ▸ hu) (not_ended (type t') _)
  | cons t ts ih =>
    intro ts' u u' hu hu' heq
    cases ts' with
    | nil =>
      rw [Ty.renderAll, Ty.renderAll, List.append_assoc] at heq
      rw [List.nil_append] at heq
      exact absurd (heq ▸ hu') (not_ended (type t) _)
    | cons t' ts' =>
      rw [Ty.renderAll, Ty.renderAll, List.append_assoc, List.append_assoc] at heq
      obtain ⟨ht, htail⟩ := h t List.mem_cons_self (type t') _ _ heq
      obtain rfl : t = t' := type.inj ht
      obtain ⟨rfl, hu⟩ := ih (fun u hu => h u (List.mem_cons_of_mem t hu)) ts' u u' hu hu' htail
      exact ⟨rfl, hu⟩

theorem unique_struct {t : Ty} {ts : List Ty} (h : ∀ u ∈ t :: ts, Unique (type u)) :
    Unique (type (.struct t ts)) := by
  intro e' u u' heq
  obtain ⟨t', ts', rfl⟩ := code_eq_struct (code_eq_of_append heq).symm
  -- The fields of either struct end at its bracket, which no type starts with.
  have hended : ∀ w : Bytes, Ended (structEnd :: w) := by
    intro w b hb
    obtain rfl : structEnd = b := Option.some.inj hb
    exact Code.ofByte?_structEnd
  rw [render, render, Ty.render_struct, Ty.render_struct, List.cons_append, List.cons_append,
    List.append_assoc, List.append_assoc] at heq
  obtain ⟨hts, hu⟩ :=
    renderAll_unique h (t' :: ts') _ _ (hended u) (hended u') (List.cons.inj heq).2
  obtain ⟨rfl, rfl⟩ := List.cons.inj hts
  exact ⟨rfl, (List.cons.inj hu).2⟩

mutual

theorem unique_type : ∀ t : Ty, Unique (type t)
  | .basic k => unique_basic k
  | .variant => unique_variant
  | .array t => unique_arrayOf (unique_type t)
  | .dict k v => unique_arrayOf (unique_entry k (unique_type v))
  | .struct t ts => unique_struct (unique_types (t :: ts))

theorem unique_types : ∀ ts : List Ty, ∀ t ∈ ts, Unique (type t)
  | [], _, h => absurd h List.not_mem_nil
  | t :: ts, u, h =>
    (List.mem_cons.mp h).elim (fun h => h ▸ unique_type t) (unique_types ts u)

end

/-- No two elements stand at the front of the same bytes. -/
theorem unique (e : Element) : Unique e := by
  cases e with
  | type t => exact unique_type t
  | entry k v => exact unique_entry k (unique_type v)

end Element

namespace Ty

/-- **Where two types stand at the front of the same bytes, they are the same.** -/
theorem render_append_inj {t t' : Ty} {u u' : Bytes} (h : t.render ++ u = t'.render ++ u') :
    t = t' ∧ u = u' := by
  obtain ⟨ht, hu⟩ := Element.unique_type t (.type t') u u' h
  exact ⟨Element.type.inj ht, hu⟩

/-- No type has a text that begins another type's text. -/
theorem eq_of_render_prefix {t t' : Ty} (h : t.render <+: t'.render) : t = t' := by
  obtain ⟨u, hu⟩ := h
  exact (render_append_inj (hu.trans (List.append_nil _).symm)).1

/-- **A text is the text of one list of types only.** -/
theorem renderAll_inj {ts ts' : List Ty} (h : renderAll ts = renderAll ts') : ts = ts' := by
  have hnil : Ended [] := by
    intro b hb
    simp at hb
  have h' : renderAll ts ++ [] = renderAll ts' ++ [] := by rw [h]
  exact (Element.renderAll_unique (Element.unique_types ts) ts' [] [] hnil hnil h').1

/-! ## Plain bytes -/

mutual

/-- The text of a type consists of characters of one byte each. -/
theorem lt_of_mem_render : ∀ (t : Ty), ∀ b ∈ t.render, b < 128
  | basic k, b, h => by
    obtain rfl := List.mem_singleton.mp h
    cases k <;> decide
  | variant, b, h => by
    obtain rfl := List.mem_singleton.mp h
    decide
  | array t, b, h => by
    rcases List.mem_cons.mp h with rfl | h
    · decide
    · exact lt_of_mem_render t b h
  | dict k v, b, h => by
    simp only [render, List.mem_cons, List.mem_append, List.mem_nil_iff, or_false] at h
    rcases h with rfl | rfl | rfl | h | rfl
    · decide
    · decide
    · cases k <;> decide
    · exact lt_of_mem_render v b h
    · decide
  | struct t ts, b, h => by
    rw [render_struct] at h
    rcases List.mem_cons.mp h with rfl | h
    · decide
    · rcases List.mem_append.mp h with h | h
      · exact lt_of_mem_renderAll (t :: ts) b h
      · obtain rfl := List.mem_singleton.mp h
        decide

theorem lt_of_mem_renderAll : ∀ (ts : List Ty), ∀ b ∈ renderAll ts, b < 128
  | [], b, h => absurd h List.not_mem_nil
  | t :: ts, b, h => by
    rcases List.mem_append.mp h with h | h
    · exact lt_of_mem_render t b h
    · exact lt_of_mem_renderAll ts b h

end

end Ty

end DBusTypes
