import DBusTypes.Proofs.Values

/-!
# Building up and taking apart

The builders put the texts of signatures together and check the whole again; going down into a type
cuts its text apart and checks nothing. The two are inverse to each other.

1. What is within the limits of the protocol has parts that are (`Ty.Standard`), so each part is a
   signature of its own, and the builders accept it.
2. What a builder has accepted is the text of one type: that of an array, of a dictionary or of a
   struct, with the types of the arguments as its parts. Of a dictionary this has to be read off the
   accepted text, as any single type is taken for the key at first.

* `Ty.array_signature`, `Ty.dict_signature`, `Ty.struct_signature` — what builders make of parts
* `Signature.Rebuilt` — a signature is what builders make of the children of its type
* `Signature.Grown` — a signature that builders alone make of basic types and variants
* `builders_inverse` — **builders and children are inverse to each other**
-/

namespace DBusTypes

/-! ## Types within the limits of the protocol -/

/-- A text of types is accepted if it is not too long and the types fit. -/
theorem check_renderAll_iff {limits : Limits} {ts : List Ty} :
    check limits (Ty.renderAll ts) = .ok () ↔
      (∀ n, limits.length = some n → (Ty.renderAll ts).length ≤ n) ∧ Ty.Fit limits.depth ts := by
  rw [check_ok_iff_fit]
  refine and_congr_right fun _ => ⟨?_, fun h => ⟨ts, rfl, h⟩⟩
  rintro ⟨us, hus, hfit⟩
  obtain rfl := Ty.renderAll_inj hus
  exact hfit

namespace Element

/-- An element as the only item of its text. -/
def item (e : Element) : Excerpt := ⟨e.render, 0, e.code, true⟩

/-- The children of an element that stands alone are its parts. -/
theorem toList_children {e : Element} {scope : Scope} (h : e.Allowed .top scope) :
    e.item.children.toList = Excerpts.cut 0 e.parts := Excerpt.toList_children h.element rfl rfl

end Element

namespace Ty

theorem renderAll_singleton (t : Ty) : renderAll [t] = t.render := List.append_nil _

/-- Whether a type keeps within the limits of the protocol. -/
def Standard (t : Ty) : Prop :=
  t.render.length ≤ 255 ∧ Fit Limits.standard.depth [t]

/-- The signature of a type alone. -/
def signature (t : Ty) : Signature := .ofChecked t.render

theorem text_signature (t : Ty) : t.signature.text = renderAll [t] := (renderAll_singleton t).symm

/-- A type is accepted under the limits of the protocol if it keeps within them. -/
theorem ofBytes_render_iff {t : Ty} {s : Signature} :
    Signature.ofBytes t.render = .ok s ↔ t.Standard ∧ s = t.signature := by
  have hlength : (∀ n, Limits.standard.length = some n → t.render.length ≤ n) ↔
      t.render.length ≤ 255 := by simp [Limits.standard]
  rw [Signature.ofBytes, Signature.within_ok_iff, ← renderAll_singleton, check_renderAll_iff,
    renderAll_singleton, hlength]
  rfl

theorem Standard.ofBytes {t : Ty} (h : t.Standard) : Signature.ofBytes t.render = .ok t.signature :=
  ofBytes_render_iff.mpr ⟨h, rfl⟩

theorem count_signature {limit : Depth} {t : Ty} (h : Fit limit [t]) : t.signature.count = 1 := by
  rw [Signature.count, text_signature, countTypes_renderAll h.top]
  rfl

/-- The element of an array keeps within limits that the array keeps. -/
theorem Standard.element {t : Ty} (h : (array t).Standard) : t.Standard := by
  obtain ⟨hlength, hc, he⟩ := h
  simp only [render, List.length_cons, containersAll, containers, entriesAll, entries] at hlength hc he
  refine ⟨by omega, ?_, ?_⟩
  · simp only [containersAll]
    omega
  · simpa only [entriesAll] using he

theorem standard_key (k : Basic) : (basic k).Standard := by
  refine ⟨by simp [render], ?_, ?_⟩ <;>
    simp [containersAll, containers, entriesAll, entries]

/-- The value of a dictionary keeps within limits that the dictionary keeps. -/
theorem Standard.value {k : Basic} {v : Ty} (h : (dict k v).Standard) : v.Standard := by
  obtain ⟨hlength, hc, he⟩ := h
  simp only [render, List.length_cons, List.length_append, containersAll, containers, entriesAll,
    entries] at hlength hc he
  refine ⟨by omega, ?_, ?_⟩
  · simp only [containersAll]
    omega
  · simp only [entriesAll]
    omega

theorem Fit.of_mem {limit : Depth} {u : Ty} {ts : List Ty} (h : Fit limit ts) (hu : u ∈ ts) :
    Fit limit [u] := by
  obtain ⟨vs, ws, rfl⟩ := List.append_of_mem hu
  exact (fit_cons.mp (fit_append.mp h).2).1

/-- The fields of a struct keep within limits that the struct keeps. -/
theorem Standard.field {t u : Ty} {ts : List Ty} (h : (struct t ts).Standard) (hu : u ∈ t :: ts) :
    u.Standard := by
  obtain ⟨hlength, hc, he⟩ := h
  have hle := Element.length_render_le_of_mem (List.mem_map_of_mem (f := Element.type) hu)
  rw [Element.renderAll_map_type, Element.render] at hle
  rw [render_struct] at hlength
  simp only [List.length_cons, List.length_append] at hlength
  have hfields : Fit Limits.standard.depth (t :: ts) := by
    rw [containersAll, containers_struct] at hc
    rw [entriesAll, entries_struct] at he
    exact ⟨by omega, by omega⟩
  exact ⟨by omega, hfields.of_mem hu⟩

/-! ## What builders make of parts -/

theorem array_signature {t : Ty} (h : (array t).Standard) :
    Signature.array t.signature = .ok (array t).signature :=
  Signature.array_ok_iff.mpr ⟨count_signature h.element.2, h.ofBytes⟩

theorem dict_signature {k : Basic} {v : Ty} (h : (dict k v).Standard) :
    Signature.dict (basic k).signature v.signature = .ok (dict k v).signature :=
  Signature.dict_ok_iff.mpr ⟨count_signature (standard_key k).2, count_signature h.value.2, h.ofBytes⟩

/-- The fields of a struct, one after the other, are what is between its brackets. -/
theorem flatMap_text_signature (ts : List Ty) :
    (ts.map signature).flatMap (·.text) = renderAll ts := by
  induction ts with
  | nil => rfl
  | cons t ts ih => rw [List.map_cons, List.flatMap_cons, ih, renderAll]; rfl

theorem struct_signature {t : Ty} {ts : List Ty} (h : (struct t ts).Standard) :
    Signature.struct ((t :: ts).map signature) = .ok (struct t ts).signature := by
  rw [Signature.struct_ok_iff, flatMap_text_signature, ← render_struct]
  refine ⟨?_, h.ofBytes⟩
  rw [renderAll]
  exact fun hnil => (Element.type t).render_ne_nil (List.append_eq_nil_iff.mp hnil).1

end Ty

/-! ## The types a signature holds -/

namespace Signature

/-- Whether a signature holds one type and no other, however it is gone through. -/
def Sole (s : Signature) (x : Excerpt) : Prop :=
  s.excerpts.toList = [x] ∧ s.portions.toList.map Portion.excerpt = [x]

/-- The types of a signature are given one after the other. -/
theorem toList_excerpts {s : Signature} {ts : List Ty} (ht : s.text = Ty.renderAll ts)
    (h : Ty.Fit .top ts) : s.excerpts.toList = Excerpts.cut 0 (ts.map .type) :=
  Excerpts.toList_eq (Excerpts.between_excerpts ht h)

/-- The types of a signature are the same as parts of its text. -/
theorem map_excerpt_portions {s : Signature} (h : s.Sound) :
    s.portions.toList.map Portion.excerpt = s.excerpts.toList := by
  obtain ⟨-, ts, ht, hfit⟩ := h
  rw [toList_excerpts ht hfit]
  exact Portions.map_excerpt_toList (Portions.between_portions ht hfit)

/-- A signature of one type holds that type alone. -/
theorem sole_of_render {s : Signature} {t : Ty} (ht : s.text = t.render) (h : Ty.Fit .top [t]) :
    s.Sole (Element.type t).item := by
  have htext : s.text = Ty.renderAll [t] := ht.trans (Ty.renderAll_singleton t).symm
  have hitems : s.excerpts.toList = [(Element.type t).item] := toList_excerpts htext h
  refine ⟨hitems, ?_⟩
  rw [map_excerpt_portions (sound_of_fit htext h), hitems]

/-- A sound signature of one type is the text of a type. -/
theorem Sound.exists_type {s : Signature} (h : s.Sound) (hcount : s.count = 1) :
    ∃ t : Ty, s.text = t.render ∧ Ty.Fit .top [t] := by
  obtain ⟨-, ts, ht, hfit⟩ := h
  rw [count, ht, countTypes_renderAll hfit] at hcount
  obtain ⟨t, rfl⟩ := List.length_eq_one_iff.mp hcount
  exact ⟨t, ht.trans (Ty.renderAll_singleton t), hfit⟩

/-- What is accepted as one type under the limits of the protocol is a type that keeps them. -/
theorem exists_standard {text : Bytes} {s : Signature} (h : ofBytes text = .ok s)
    (hcount : s.count = 1) : ∃ t : Ty, t.Standard ∧ s = t.signature := by
  obtain ⟨t, ht, -⟩ := (sound_of_within h).exists_type hcount
  have htext : s.text = text := by rw [(within_ok_iff.mp h).2]; rfl
  rw [← htext, ht] at h
  exact ⟨t, Ty.ofBytes_render_iff.mp h⟩

end Signature

/-! ## Taking a type apart and building it again -/

namespace Signature

/-- Whether builders make a signature again of the children of the one type it holds, each of them
checked as a text of its own. -/
structure Rebuilt (s : Signature) (x : Excerpt) : Prop where
  struct : x.code = .struct → ∃ fields,
    x.children.toList.map (fun y => ofBytes y.text) = fields.map .ok ∧
      Signature.struct fields = .ok s
  array : x.code = .array → ∃ y, x.children.toList = [y] ∧
    (y.code ≠ .dictEntry → ∃ e, ofBytes y.text = .ok e ∧ Signature.array e = .ok s) ∧
    (y.code = .dictEntry → ∃ k v,
      y.children.toList.map (fun z => ofBytes z.text) = [.ok k, .ok v] ∧
        Signature.dict k v = .ok s)

/-- The signatures that builders alone make, starting from basic types and variants. -/
inductive Grown : Signature → Prop
  | basic (k : Basic) {s : Signature} (h : ofBytes [(Code.basic k).byte] = .ok s) : Grown s
  | variant {s : Signature} (h : ofBytes [Code.variant.byte] = .ok s) : Grown s
  | array {e s : Signature} (he : Grown e) (h : Signature.array e = .ok s) : Grown s
  | dict {k v s : Signature} (hk : Grown k) (hv : Grown v) (h : Signature.dict k v = .ok s) : Grown s
  | struct {fields : List Signature} {s : Signature} (hf : ∀ f ∈ fields, Grown f)
      (h : Signature.struct fields = .ok s) : Grown s

end Signature

namespace Ty

mutual

/-- A type that keeps within the limits is built from its leaves. -/
theorem grown : ∀ t : Ty, t.Standard → t.signature.Grown
  | basic k, h => .basic k h.ofBytes
  | variant, h => .variant h.ofBytes
  | array t, h => .array (grown t h.element) (array_signature h)
  | dict k v, h => .dict (.basic k (standard_key k).ofBytes) (grown v h.value) (dict_signature h)
  | struct t ts, h =>
    .struct (grownAll (t :: ts) fun _ hu => h.field hu) (struct_signature h)

theorem grownAll : ∀ ts : List Ty, (∀ t ∈ ts, t.Standard) → ∀ s ∈ ts.map signature, s.Grown
  | [], _, s, hs => absurd hs List.not_mem_nil
  | t :: ts, h, s, hs => by
    rcases List.mem_cons.mp hs with rfl | hs
    · exact grown t (h t List.mem_cons_self)
    · exact grownAll ts (fun u hu => h u (List.mem_cons_of_mem t hu)) s hs

end

/-- Cut out of a larger text, types that keep within the limits are accepted, each alone. -/
theorem map_ofBytes_cut {offset : Nat} (ts : List Ty) (h : ∀ t ∈ ts, t.Standard) :
    (Excerpts.cut offset (ts.map .type)).map (fun y => Signature.ofBytes y.text) =
      (ts.map signature).map .ok := by
  have htexts := Excerpts.map_text_cut offset (ts.map .type)
  calc
    _ = ((Excerpts.cut offset (ts.map .type)).map (·.text)).map Signature.ofBytes :=
      (List.map_map ..).symm
    _ = ts.map fun t => Signature.ofBytes t.render := by rw [htexts, List.map_map, List.map_map]; rfl
    _ = ts.map fun t => .ok t.signature := List.map_congr_left fun t ht => (h t ht).ofBytes
    _ = (ts.map signature).map .ok := (List.map_map ..).symm

/-- **A type that keeps within the limits is made again of its children.** -/
theorem Standard.rebuilt {t : Ty} (h : t.Standard) : t.signature.Rebuilt (Element.type t).item := by
  have hlist := Element.toList_children h.2.top.allowed
  constructor
  · intro hc
    obtain ⟨u, us, hu⟩ := Element.code_eq_struct (e := .type t) hc
    obtain rfl := Element.type.inj hu
    refine ⟨(u :: us).map signature, ?_, struct_signature h⟩
    rw [hlist, Element.parts, map_ofBytes_cut]
    exact fun v hv => h.field hv
  · intro hc
    obtain ⟨e, he⟩ := Element.code_eq_array (e := .type t) hc
    obtain rfl := Element.type.inj he
    rw [Element.parts_arrayOf] at hlist
    refine ⟨_, hlist, ?_, ?_⟩
    · intro hne
      -- An element that is no dict-entry is a type.
      cases e with
      | type u => exact ⟨u.signature, h.element.ofBytes, array_signature h⟩
      | entry k v => exact absurd rfl hne
    · intro heq
      obtain ⟨k, v, rfl⟩ := Element.code_eq_dictEntry heq
      refine ⟨(basic k).signature, v.signature, ?_, dict_signature h⟩
      have hentry := Element.allowed_of_arrayOf h.2.top.allowed
      show List.map _ (Element.entry k v).item.children.toList = _
      rw [Element.toList_children hentry]
      refine map_ofBytes_cut [basic k, v] ?_
      intro u hu
      rcases List.mem_cons.mp hu with rfl | hu
      · exact standard_key k
      · obtain rfl := List.mem_singleton.mp hu
        exact h.value

/-- Only a basic type is taken for the key of a dict-entry. -/
theorem eq_dict_of_render {t u : Ty} {ts : List Ty}
    (h : Code.array.byte :: Code.dictEntry.byte :: (t.render ++ u.render ++ [entryEnd]) =
      renderAll ts) : ∃ k, t = basic k ∧ ts = [dict k u] := by
  cases ts with
  | nil => exact absurd h (List.cons_ne_nil _ _)
  | cons w ts =>
    rw [renderAll] at h
    -- The text starts like an array, and the array's element like a dict-entry.
    obtain ⟨e, he⟩ := Element.code_eq_array (Element.code_eq_of_cons (e := .type w) h.symm)
    obtain rfl := Element.type.inj he
    rw [Element.render_arrayOf] at h
    have helement := (List.cons.inj h).2
    obtain ⟨k, v, rfl⟩ := Element.code_eq_dictEntry (Element.code_eq_of_cons helement.symm)
    have hkey : t.render ++ (u.render ++ [entryEnd]) =
        (basic k).render ++ (v.render ++ (entryEnd :: renderAll ts)) := by
      simpa [Element.render, render] using helement
    obtain ⟨rfl, hvalue⟩ := render_append_inj hkey
    obtain ⟨rfl, hrest⟩ := render_append_inj hvalue
    obtain rfl : [] = ts := renderAll_inj (List.cons.inj hrest).2
    exact ⟨k, rfl, rfl⟩

end Ty

/-! ## Building and taking apart -/

/-- The text and the code of an item, wherever it stands. -/
def Excerpt.shown (x : Excerpt) : Bytes × Code := (x.text, x.code)

/-- Whether an item starts with a code and has for its children the types of signatures, one signature
after the other. -/
def Excerpt.Wraps (x : Excerpt) (code : Code) (parts : List Signature) : Prop :=
  x.code = code ∧
    x.children.toList.map shown = (parts.flatMap (·.excerpts.toList)).map shown

theorem Excerpts.map_shown_cut (offset : Nat) (es : List Element) :
    (cut offset es).map Excerpt.shown = es.map fun e => (e.render, e.code) := by
  induction es generalizing offset with
  | nil => rfl
  | cons e es ih => rw [cut, List.map_cons, List.map_cons, ih]; rfl

namespace Signature

/-- The types of sound signatures, one signature after the other. -/
theorem exists_flatMap {parts : List Signature} (h : ∀ p ∈ parts, p.Sound) :
    ∃ ts : List Ty, parts.flatMap (·.text) = Ty.renderAll ts ∧ Ty.Fit .top ts ∧
      (parts.flatMap (·.excerpts.toList)).map Excerpt.shown = ts.map fun t => (t.render, t.code) := by
  induction parts with
  | nil => exact ⟨[], rfl, ⟨Nat.zero_le _, Nat.zero_le _⟩, rfl⟩
  | cons p parts ih =>
    obtain ⟨-, us, hu, hus⟩ := h p List.mem_cons_self
    obtain ⟨ts, ht, hts, hshown⟩ := ih fun q hq => h q (List.mem_cons_of_mem p hq)
    refine ⟨us ++ ts, ?_, Ty.fit_append.mpr ⟨hus, hts⟩, ?_⟩
    · rw [List.flatMap_cons, hu, ht, Ty.renderAll_append]
    · rw [List.flatMap_cons, List.map_append, hshown, toList_excerpts hu hus,
        Excerpts.map_shown_cut, List.map_map, List.map_append]
      rfl

/-- What was accepted as a text of one type holds that type alone. -/
theorem sole_of_ofBytes {t : Ty} {s : Signature} (h : ofBytes t.render = .ok s) :
    s.Sole (Element.type t).item ∧ Ty.Fit .top [t] := by
  obtain ⟨hs, rfl⟩ := Ty.ofBytes_render_iff.mp h
  exact ⟨sole_of_render rfl hs.2.top, hs.2.top⟩

/-- The array of a signature holds one array, and in it what the signature holds. -/
theorem sole_array {e s : Signature} (he : e.Sound) (h : array e = .ok s) :
    ∃ x, s.Sole x ∧ x.Wraps .array [e] ∧ x.children.toList.map (·.text) = [e.text] := by
  obtain ⟨hcount, hs⟩ := array_ok_iff.mp h
  obtain ⟨t, ht, hfit⟩ := he.exists_type hcount
  rw [ht] at hs
  obtain ⟨hsole, hfit'⟩ := sole_of_ofBytes (t := .array t) hs
  have hlist : e.excerpts.toList = _ := (sole_of_render ht hfit).1
  refine ⟨_, hsole, ⟨rfl, ?_⟩, ?_⟩
  · rw [Element.toList_children hfit'.allowed, List.flatMap_cons, hlist]
    rfl
  · rw [Element.toList_children hfit'.allowed, ht]
    rfl

/-- The dictionary of two signatures holds one array of a dict-entry, and in it what they hold. -/
theorem sole_dict {k v s : Signature} (hk : k.Sound) (hv : v.Sound) (h : dict k v = .ok s) :
    ∃ x y, s.Sole x ∧ x.code = .array ∧ x.children.toList = [y] ∧ y.Wraps .dictEntry [k, v] ∧
      y.children.toList.map (·.text) = [k.text, v.text] := by
  obtain ⟨hcountk, hcountv, hs⟩ := dict_ok_iff.mp h
  obtain ⟨t, ht, hfitk⟩ := hk.exists_type hcountk
  obtain ⟨u, hu, hfitv⟩ := hv.exists_type hcountv
  rw [ht, hu] at hs
  -- Only now it is known that the key is basic.
  obtain ⟨-, ts, hts, -⟩ := check_ok_iff_fit.mp (within_ok_iff.mp hs).1
  obtain ⟨b, rfl, rfl⟩ := Ty.eq_dict_of_render hts
  rw [hts, Ty.renderAll_singleton] at hs
  obtain ⟨hsole, hfit⟩ := sole_of_ofBytes hs
  have hentry := Element.allowed_of_arrayOf (e := .entry b u) hfit.allowed
  have hkey : k.excerpts.toList = _ := (sole_of_render ht hfitk).1
  have hvalue : v.excerpts.toList = _ := (sole_of_render hu hfitv).1
  refine ⟨_, _, hsole, rfl, Element.toList_children hfit.allowed, ⟨rfl, ?_⟩, ?_⟩
  · show List.map _ (Element.entry b u).item.children.toList = _
    rw [Element.toList_children hentry, List.flatMap_cons, List.flatMap_cons, hkey, hvalue]
    rfl
  · show List.map _ (Element.entry b u).item.children.toList = _
    rw [Element.toList_children hentry, ht, hu]
    rfl

/-- The struct of signatures holds one struct, and in it what they hold, one after the other. -/
theorem sole_struct {fields : List Signature} {s : Signature} (hf : ∀ f ∈ fields, f.Sound)
    (h : struct fields = .ok s) : ∃ x, s.Sole x ∧ x.Wraps .struct fields := by
  obtain ⟨hne, hs⟩ := struct_ok_iff.mp h
  obtain ⟨ts, ht, -, hshown⟩ := exists_flatMap hf
  rw [ht] at hne hs
  cases ts with
  | nil => exact absurd rfl hne
  | cons t ts =>
    rw [← Ty.render_struct] at hs
    obtain ⟨hsole, hfit⟩ := sole_of_ofBytes hs
    refine ⟨_, hsole, rfl, ?_⟩
    rw [hshown, Element.toList_children hfit.allowed, Excerpts.map_shown_cut, Element.parts, List.map_map]
    rfl

end Signature

/-- **Builders and children are inverse to each other.** A single type that is accepted under the
limits of the protocol is made again by the builder of its form from its children, and so from its
leaves by builders alone. What a builder makes, of whatever signatures, is one type whose children are
the types of these. -/
theorem builders_inverse :
    (∀ text s, Signature.ofBytes text = .ok s → s.count = 1 →
      ∃ x, s.Sole x ∧ s.Rebuilt x ∧ s.Grown) ∧
    (∀ e s : Signature, e.Sound → Signature.array e = .ok s →
      ∃ x, s.Sole x ∧ x.Wraps .array [e] ∧ x.children.toList.map (·.text) = [e.text]) ∧
    (∀ k v s : Signature, k.Sound → v.Sound → Signature.dict k v = .ok s →
      ∃ x y, s.Sole x ∧ x.code = .array ∧ x.children.toList = [y] ∧ y.Wraps .dictEntry [k, v] ∧
        y.children.toList.map (·.text) = [k.text, v.text]) ∧
    ∀ (fields : List Signature) (s : Signature), (∀ f ∈ fields, f.Sound) →
      Signature.struct fields = .ok s → ∃ x, s.Sole x ∧ x.Wraps .struct fields := by
  refine ⟨?_, ?_, ?_, ?_⟩
  · intro text s h hcount
    obtain ⟨t, ht, rfl⟩ := Signature.exists_standard h hcount
    exact ⟨_, Signature.sole_of_render rfl ht.2.top, ht.rebuilt, t.grown ht⟩
  · intro e s he h
    exact Signature.sole_array he h
  · intro k v s hk hv h
    exact Signature.sole_dict hk hv h
  · intro fields s hf h
    exact Signature.sole_struct hf h

/-- The signature `a{s(iv)}` is made of `s` and `(iv)`, the latter of `i` and `v`, and `ai` of `i`. -/
theorem builders_inverse_entry :
    let s : Signature := .ofChecked [0x73]
    let i : Signature := .ofChecked [0x69]
    let v : Signature := .ofChecked [0x76]
    let ai : Signature := .ofChecked [0x61, 0x69]
    let pair : Signature := .ofChecked [0x28, 0x69, 0x76, 0x29]
    let whole : Signature := .ofChecked [0x61, 0x7b, 0x73, 0x28, 0x69, 0x76, 0x29, 0x7d]
    (Signature.ofBytes whole.text = .ok whole ∧ whole.count = 1 ∧
      ∃ x, whole.Sole x ∧ whole.Rebuilt x ∧ whole.Grown) ∧
    (i.Sound ∧ Signature.array i = .ok ai ∧
      ∃ x, ai.Sole x ∧ x.Wraps .array [i] ∧ x.children.toList.map (·.text) = [i.text]) ∧
    (s.Sound ∧ pair.Sound ∧ Signature.dict s pair = .ok whole ∧
      ∃ x y, whole.Sole x ∧ x.code = .array ∧ x.children.toList = [y] ∧
        y.Wraps .dictEntry [s, pair] ∧ y.children.toList.map (·.text) = [s.text, pair.text]) ∧
    ((∀ f ∈ [i, v], f.Sound) ∧ Signature.struct [i, v] = .ok pair ∧
      ∃ x, pair.Sole x ∧ x.Wraps .struct [i, v]) := by
  intro s i v ai pair whole
  let t : Ty := .struct (.basic .int32) [.variant]
  have ht : t.Standard := ⟨by decide, by decide⟩
  have hdict : (Ty.dict .string t).Standard := ⟨by decide, by decide⟩
  have harray : (Ty.array (.basic .int32)).Standard := ⟨by decide, by decide⟩
  have hsound : ∀ {u : Ty}, u.Standard → u.signature.Sound := fun hu =>
    Signature.sound_of_within hu.ofBytes
  have hfields : ∀ f ∈ [i, v], f.Sound := by
    intro f hf
    rcases List.mem_cons.mp hf with rfl | hf
    · exact hsound (Ty.standard_key .int32)
    · obtain rfl := List.mem_singleton.mp hf
      exact hsound (ht.field (List.mem_cons_of_mem _ List.mem_cons_self))
  have hwhole : Signature.ofBytes whole.text = .ok whole := hdict.ofBytes
  have hcount : whole.count = 1 := Ty.count_signature hdict.2
  have hai : Signature.array i = .ok ai := Ty.array_signature harray
  have hmap : Signature.dict s pair = .ok whole := Ty.dict_signature hdict
  have hpair : Signature.struct [i, v] = .ok pair := Ty.struct_signature ht
  have hi : i.Sound := hsound (Ty.standard_key .int32)
  have hs : s.Sound := hsound (Ty.standard_key .string)
  have hp : pair.Sound := hsound ht
  obtain ⟨hback, harrays, hdicts, hstructs⟩ := builders_inverse
  exact ⟨⟨hwhole, hcount, hback _ _ hwhole hcount⟩, ⟨hi, hai, harrays _ _ hi hai⟩,
    ⟨hs, hp, hmap, hdicts _ _ _ hs hp hmap⟩, hfields, hpair, hstructs _ _ hfields hpair⟩

end DBusTypes
