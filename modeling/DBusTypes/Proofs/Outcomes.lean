import Mathlib.Data.List.Forall2
import DBusTypes.Proofs.Builders
import DBusTypes.Proofs.Diagnosis
import DBusTypes.Proofs.Tightening

/-!
# What building comes to

A builder is given signatures that may have been made under any limits, and checks what it puts
together under those of the protocol. What comes of it can be told from the arguments alone: how many
types they hold, how long their texts are, and how deep they are nested.

1. A text of types is refused for its length, or else for its depth, or else not at all
   (`Ty.ofBytes_renderAll`): a text that is short enough is never too deep to be counted, so all that
   can stop it is the limit.
2. What is put together is the text of one type, but for a dictionary whose key is not basic. That one
   is refused at its key, before anything behind it is looked at (`Signature.ofBytes_otherKey`).

* `Signature.Holds` — the types that a signature holds
* `array_dict_outcome` — **what an array and a dictionary come to**
* `struct_outcome` — **what a struct comes to**, which depends on the text of its fields only
-/

namespace DBusTypes

/-! ## Depth and length -/

namespace Ty

mutual

/-- Whatever is open at once has bytes of its own. -/
theorem depth_le_length : ∀ t : Ty, t.containers ≤ t.render.length ∧ t.entries ≤ t.render.length
  | basic k => by simp [containers, entries]
  | variant => by simp [containers, entries]
  | array t => by
    have h := depth_le_length t
    simp only [containers, entries, render, List.length_cons]
    omega
  | dict k v => by
    have h := depth_le_length v
    simp only [containers, entries, render, List.length_cons, List.length_append]
    omega
  | struct t ts => by
    have h := depth_le_length t
    have hs := depthAll_le_length ts
    simp only [containers, entries, render, List.length_cons, List.length_append]
    omega

/-- The same for several types, one after the other. -/
theorem depthAll_le_length : ∀ ts : List Ty,
    containersAll ts ≤ (renderAll ts).length ∧ entriesAll ts ≤ (renderAll ts).length
  | [] => by simp [containersAll, entriesAll]
  | t :: ts => by
    have h := depth_le_length t
    have hs := depthAll_le_length ts
    simp only [containersAll, entriesAll, renderAll, List.length_append]
    omega

end

/-- A text within the length of the protocol is not too deep to be counted. -/
theorem fit_top_of_length {ts : List Ty} (h : (renderAll ts).length ≤ 255) : Fit .top ts := by
  obtain ⟨hc, he⟩ := depthAll_le_length ts
  have hcontainers : Depth.top.containers.toNat = 4294967295 := rfl
  have hentries : Depth.top.entries.toNat = 4294967295 := rfl
  exact ⟨by omega, by omega⟩

/-- Whether a type is basic. -/
def isBasic : Ty → Bool
  | basic _ => true
  | variant | array _ | dict .. | struct .. => false

theorem isBasic_iff {t : Ty} : t.isBasic = true ↔ ∃ k, t = basic k := by
  cases t <;> simp [isBasic]

end Ty

/-! ## One type under the limits of the protocol -/

/-- A depth is reported with its own limit. -/
theorem limit_of_tooDeep {depth : Depth} {bytes : Bytes} {o : Nat} {n : Nesting} {l : UInt32}
    (h : checkFrom (.new depth .sequence) 0 bytes = .error ⟨o, .tooDeep n l⟩) : l = n.limit depth := by
  rw [checkFrom_eq_feedAll] at h
  rcases bind_eq_error.mp h with h | ⟨s, hs, h⟩
  · obtain ⟨u, b, v, s, rfl, hu, hb⟩ := Nest.feedAll_error h
    obtain ⟨p, rfl, rfl⟩ := Progress.exists_of_feedAll hu
    rw [Nat.zero_add] at hb
    exact (p.trueOf_feed v hb).1
  · obtain ⟨p, rfl, rfl⟩ := Progress.exists_of_feedAll hs
    exact (p.trueOf_finish h).1

/-- **Types that can be read are refused for their depth only**, where their length plays no part. -/
theorem checkFrom_renderAll {depth : Depth} {ts : List Ty} (htop : Ty.Fit .top ts)
    (h : ¬ Ty.Fit depth ts) :
    ∃ o n, checkFrom (.new depth .sequence) 0 (Ty.renderAll ts) =
      .error ⟨o, .tooDeep n (n.limit depth)⟩ := by
  have hall : checkFrom (.new .top .sequence) 0 (Ty.renderAll ts) = .ok () :=
    (checkFrom_ok_iff rfl).mpr ⟨ts, rfl, htop⟩
  have hle : depth ≤ .top := depth.toNat_le_top
  rcases checkFrom_tighten hle (Ty.renderAll ts) with hsame | ⟨⟨o, c⟩, hf, n, l, rfl⟩
  · obtain ⟨us, hus, hfit⟩ := (checkFrom_ok_iff rfl).mp (hsame.symm.trans hall)
    obtain rfl := Ty.renderAll_inj hus
    exact absurd hfit h
  · obtain rfl := limit_of_tooDeep hf
    exact ⟨o, n, hf⟩

namespace Signature

variable {text : Bytes} {f : Fault}

/-- A text is too long before anything else is looked at. -/
theorem ofBytes_tooLong (h : 255 < text.length) :
    ofBytes text = .error (.rejected (.tooLong text.length 255)) := by
  have hlength : checkLength Limits.standard.length text = .error (.tooLong text.length 255) :=
    if_pos h
  rw [ofBytes, within, check, hlength]
  rfl

theorem ofBytes_fault (h : text.length ≤ 255)
    (hf : checkFrom (.new Limits.standard.depth .sequence) 0 text = .error f) :
    ofBytes text = .error (.rejected (.fault f)) := by
  have hlength : checkLength Limits.standard.length text = .ok () := if_neg (Nat.not_lt.mpr h)
  rw [ofBytes, within, check, hlength, hf]
  rfl

end Signature

/-- **What a text of types comes to**: it is refused if it is too long, or else if it is too deep, and
otherwise it is accepted. -/
theorem Ty.ofBytes_renderAll (ts : List Ty) : ∃ o n,
    Signature.ofBytes (renderAll ts) =
      if 255 < (renderAll ts).length then
        .error (.rejected (.tooLong (renderAll ts).length 255))
      else if 32 < containersAll ts ∨ 32 < entriesAll ts then
        .error (.rejected (.fault ⟨o, .tooDeep n 32⟩))
      else .ok (.ofChecked (renderAll ts)) := by
  have hfit : Fit Limits.standard.depth ts ↔ ¬ (32 < containersAll ts ∨ 32 < entriesAll ts) := by
    have hlimit : (32 : UInt32).toNat = 32 := rfl
    simp only [Fit, Limits.standard, hlimit]
    omega
  by_cases hlong : 255 < (renderAll ts).length
  · refine ⟨0, .arrayOrStruct, ?_⟩
    rw [if_pos hlong]
    exact Signature.ofBytes_tooLong hlong
  · have hlength := Nat.not_lt.mp hlong
    by_cases hdeep : 32 < containersAll ts ∨ 32 < entriesAll ts
    · obtain ⟨o, n, hf⟩ := checkFrom_renderAll (fit_top_of_length hlength)
        (fun h => hfit.mp h hdeep)
      have hn : n.limit Limits.standard.depth = 32 := by cases n <;> rfl
      rw [hn] at hf
      refine ⟨o, n, ?_⟩
      rw [if_neg hlong, if_pos hdeep]
      exact Signature.ofBytes_fault hlength hf
    · refine ⟨0, .arrayOrStruct, ?_⟩
      rw [if_neg hlong, if_neg hdeep]
      refine Signature.within_ok_iff.mpr ⟨check_renderAll_iff.mpr ⟨?_, hfit.mpr hdeep⟩, rfl⟩
      intro n hn
      obtain rfl := Option.some.inj hn
      exact hlength

/-- The same for the text of one type. -/
theorem Ty.ofBytes_render (t : Ty) : ∃ o n,
    Signature.ofBytes t.render =
      if 255 < t.render.length then .error (.rejected (.tooLong t.render.length 255))
      else if 32 < t.containers ∨ 32 < t.entries then .error (.rejected (.fault ⟨o, .tooDeep n 32⟩))
      else .ok t.signature := by
  obtain ⟨o, n, h⟩ := ofBytes_renderAll [t]
  rw [renderAll_singleton] at h
  simp only [containersAll, entriesAll, Nat.max_zero] at h
  exact ⟨o, n, h⟩

/-! ## What is put together -/

namespace Signature

variable {s k v : Signature} {ts us : List Ty}

/-- Whether the types of a signature are these. -/
structure Holds (s : Signature) (ts : List Ty) : Prop where
  text : s.text = Ty.renderAll ts
  fit : Ty.Fit .top ts

theorem Sound.exists_holds (h : s.Sound) : ∃ ts, s.Holds ts := by
  obtain ⟨-, ts, ht, hfit⟩ := h
  exact ⟨ts, ht, hfit⟩

/-- A signature holds types whatever limits its text was accepted under. -/
theorem exists_holds {limits : Limits} (h : check limits s.text = .ok ()) : ∃ ts, s.Holds ts := by
  obtain ⟨-, ts, ht, hfit⟩ := check_ok_iff_fit.mp h
  exact ⟨ts, ht, hfit.top⟩

theorem Holds.count_eq (h : s.Holds ts) : s.count = ts.length := by
  rw [count, h.text, countTypes_renderAll h.fit]

theorem Holds.eq_render {t : Ty} (h : s.Holds [t]) : s.text = t.render :=
  h.text.trans (Ty.renderAll_singleton t)

theorem Holds.requireOne_eq (h : s.Holds ts) :
    s.requireOne = if ts.length ≠ 1 then .error (.notSingle ts.length) else .ok () := by
  rw [requireOne, isSingle, h.count_eq]
  by_cases hone : ts.length = 1
  · simp [hone]
  · simp [hone]

/-- **A key that is not basic is refused**, before what stands behind its first byte is looked at. -/
theorem ofBytes_otherKey {t : Ty} (ht : t.isBasic = false) (w : Bytes)
    (h : (Code.array.byte :: Code.dictEntry.byte :: (t.render ++ w)).length ≤ 255) :
    ofBytes (Code.array.byte :: Code.dictEntry.byte :: (t.render ++ w)) =
      .error (.rejected (.fault ⟨2, .keyNotBasic⟩)) := by
  refine ofBytes_fault h ?_
  rw [checkFrom_eq_feedAll]
  cases t with
  | basic k => exact absurd ht (by simp [Ty.isBasic])
  | variant | array t | dict k v | struct t ts => rfl

theorem array_eq (h : s.Holds ts) : ∃ o n,
    array s =
      if ts.length ≠ 1 then .error (.notSingle ts.length)
      else if 255 < 1 + s.length then .error (.rejected (.tooLong (1 + s.length) 255))
      else if 32 < Ty.containersAll ts + 1 ∨ 32 < Ty.entriesAll ts then
        .error (.rejected (.fault ⟨o, .tooDeep n 32⟩))
      else .ok (ofChecked (Code.array.byte :: s.text)) := by
  by_cases hone : ts.length = 1
  · obtain ⟨t, rfl⟩ := List.length_eq_one_iff.mp hone
    obtain ⟨o, n, hmade⟩ := (Ty.array t).ofBytes_render
    have hlength : (Ty.array t).render.length = 1 + s.length := by
      rw [Ty.render, List.length_cons, ← h.eq_render, Nat.add_comm]
      rfl
    refine ⟨o, n, ?_⟩
    rw [array, h.requireOne_eq, if_neg (not_not.mpr hone), if_neg (not_not.mpr hone)]
    show ofBytes (Code.array.byte :: s.text) = _
    rw [h.eq_render, ← Ty.render, hmade, hlength]
    simp only [Ty.containers, Ty.entries, Ty.containersAll, Ty.entriesAll, Nat.max_zero]
    rfl
  · refine ⟨0, .arrayOrStruct, ?_⟩
    rw [array, h.requireOne_eq, if_pos hone, if_pos hone]
    rfl

/-- A key and a value of one type each make the text of a dictionary, if the key is basic. -/
theorem ofBytes_dictText {t u : Ty} (hk : k.Holds [t]) (hv : v.Holds [u]) : ∃ o n,
    ofBytes (Code.array.byte :: Code.dictEntry.byte :: (k.text ++ v.text ++ [entryEnd])) =
      if 255 < 3 + k.length + v.length then
        .error (.rejected (.tooLong (3 + k.length + v.length) 255))
      else if t.isBasic = false then .error (.rejected (.fault ⟨2, .keyNotBasic⟩))
      else if 32 < u.containers + 1 ∨ 32 < u.entries + 1 then
        .error (.rejected (.fault ⟨o, .tooDeep n 32⟩))
      else .ok (ofChecked (Code.array.byte :: Code.dictEntry.byte ::
        (k.text ++ v.text ++ [entryEnd]))) := by
  have hlength : (Code.array.byte :: Code.dictEntry.byte ::
      (k.text ++ v.text ++ [entryEnd])).length = 3 + k.length + v.length := by
    simp only [List.length_cons, List.length_append, List.length_nil, length]
    omega
  cases hbasic : t.isBasic with
  | true =>
    obtain ⟨b, rfl⟩ := Ty.isBasic_iff.mp hbasic
    obtain ⟨o, n, hmade⟩ := (Ty.dict b u).ofBytes_render
    have htext : Code.array.byte :: Code.dictEntry.byte :: (k.text ++ v.text ++ [entryEnd]) =
        (Ty.dict b u).render := by
      rw [hk.eq_render, hv.eq_render]
      rfl
    refine ⟨o, n, ?_⟩
    rw [htext] at hlength ⊢
    rw [hmade, hlength, if_neg (show ¬ true = false by decide)]
    rfl
  | false =>
    refine ⟨0, .arrayOrStruct, ?_⟩
    by_cases hlong : 255 < 3 + k.length + v.length
    · rw [if_pos hlong, ofBytes_tooLong (by rw [hlength]; exact hlong), hlength]
    · rw [if_neg hlong, if_pos rfl]
      rw [hk.eq_render, List.append_assoc] at hlength ⊢
      exact ofBytes_otherKey hbasic _ (by rw [hlength]; exact Nat.not_lt.mp hlong)

theorem dict_eq (hk : k.Holds ts) (hv : v.Holds us) : ∃ o n,
    dict k v =
      if ts.length ≠ 1 then .error (.notSingle ts.length)
      else if us.length ≠ 1 then .error (.notSingle us.length)
      else if 255 < 3 + k.length + v.length then
        .error (.rejected (.tooLong (3 + k.length + v.length) 255))
      else if ¬ ts.all Ty.isBasic then .error (.rejected (.fault ⟨2, .keyNotBasic⟩))
      else if 32 < Ty.containersAll us + 1 ∨ 32 < Ty.entriesAll us + 1 then
        .error (.rejected (.fault ⟨o, .tooDeep n 32⟩))
      else .ok (ofChecked (Code.array.byte :: Code.dictEntry.byte ::
        (k.text ++ v.text ++ [entryEnd]))) := by
  rw [dict, hk.requireOne_eq, hv.requireOne_eq]
  by_cases hts : ts.length = 1
  · by_cases hus : us.length = 1
    · obtain ⟨t, rfl⟩ := List.length_eq_one_iff.mp hts
      obtain ⟨u, rfl⟩ := List.length_eq_one_iff.mp hus
      obtain ⟨o, n, hmade⟩ := ofBytes_dictText hk hv
      refine ⟨o, n, ?_⟩
      rw [if_neg (not_not.mpr hts), if_neg (not_not.mpr hus), if_neg (not_not.mpr hts),
        if_neg (not_not.mpr hus)]
      refine hmade.trans ?_
      simp only [Ty.containersAll, Ty.entriesAll, Nat.max_zero, List.all_cons, List.all_nil,
        Bool.and_true, Bool.not_eq_true]
    · refine ⟨0, .arrayOrStruct, ?_⟩
      rw [if_neg (not_not.mpr hts), if_pos hus, if_neg (not_not.mpr hts), if_pos hus]
      rfl
  · refine ⟨0, .arrayOrStruct, ?_⟩
    rw [if_pos hts, if_pos hts]
    rfl

/-! ## Structs -/

/-- Brackets with nothing between them are refused at the second one. -/
theorem ofBytes_emptyStruct : ofBytes [Code.struct.byte, structEnd] =
    .error (.rejected (.fault ⟨1, .emptyStruct⟩)) := by
  refine ofBytes_fault (by decide) ?_
  rw [checkFrom_eq_feedAll]
  rfl

/-- **A struct is the text of its fields between brackets, checked**, also if there is no text. -/
theorem struct_eq_ofBytes (fields : List Signature) : struct fields =
    ofBytes (Code.struct.byte :: (fields.flatMap (·.text) ++ [structEnd])) := by
  rw [struct]
  cases hw : fields.flatMap (·.text) with
  | nil => exact ofBytes_emptyStruct.symm
  | cons b w => rfl

variable {fields : List Signature} {tss : List (List Ty)}

/-- The types of all fields, one field after the other. -/
theorem flatMap_text_of_holds (h : List.Forall₂ Holds fields tss) :
    fields.flatMap (·.text) = Ty.renderAll tss.flatten := by
  induction h with
  | nil => rfl
  | cons hf _ ih => rw [List.flatMap_cons, ih, hf.text, List.flatten_cons, Ty.renderAll_append]

/-- Fields one after the other are as deep as the deepest of them. -/
theorem deep_flatten_iff (m n : Nat) (tss : List (List Ty)) :
    (m < Ty.containersAll tss.flatten ∨ n < Ty.entriesAll tss.flatten) ↔
      ∃ ts ∈ tss, m < Ty.containersAll ts ∨ n < Ty.entriesAll ts := by
  induction tss with
  | nil => simp [Ty.containersAll, Ty.entriesAll]
  | cons ts tss ih =>
    rw [List.flatten_cons, Ty.containersAll_append, Ty.entriesAll_append, lt_max_iff, lt_max_iff,
      or_or_or_comm, ih]
    simp only [List.mem_cons, exists_eq_or_imp]

theorem struct_eq (h : List.Forall₂ Holds fields tss) : ∃ o n,
    struct fields =
      if fields.flatMap (·.text) = [] then .error (.rejected (.fault ⟨1, .emptyStruct⟩))
      else if 255 < 2 + (fields.flatMap (·.text)).length then
        .error (.rejected (.tooLong (2 + (fields.flatMap (·.text)).length) 255))
      else if ∃ ts ∈ tss, 31 < Ty.containersAll ts ∨ 32 < Ty.entriesAll ts then
        .error (.rejected (.fault ⟨o, .tooDeep n 32⟩))
      else .ok (ofChecked (Code.struct.byte :: (fields.flatMap (·.text) ++ [structEnd]))) := by
  have hw := flatMap_text_of_holds h
  cases hts : tss.flatten with
  | nil =>
    refine ⟨0, .arrayOrStruct, ?_⟩
    rw [hts] at hw
    rw [struct_eq_ofBytes, hw]
    exact ofBytes_emptyStruct
  | cons t ts =>
    obtain ⟨o, n, hmade⟩ := (Ty.struct t ts).ofBytes_render
    have hne : Ty.renderAll (t :: ts) ≠ [] := fun hnil =>
      (Element.type t).render_ne_nil (List.append_eq_nil_iff.mp hnil).1
    have hlength : (Ty.struct t ts).render.length = 2 + (Ty.renderAll (t :: ts)).length := by
      rw [Ty.render_struct, List.length_cons, List.length_append, List.length_singleton]
      omega
    have hdeep : (32 < (Ty.struct t ts).containers ∨ 32 < (Ty.struct t ts).entries) ↔
        ∃ ts ∈ tss, 31 < Ty.containersAll ts ∨ 32 < Ty.entriesAll ts := by
      rw [← deep_flatten_iff, hts, Ty.containers_struct, Ty.entries_struct, Nat.lt_add_one_iff]
      rfl
    refine ⟨o, n, ?_⟩
    rw [hts] at hw
    rw [struct_eq_ofBytes, hw, if_neg hne, ← Ty.render_struct, hmade, hlength]
    simp only [hdeep]
    rfl

/-- What is made of fields is one type. -/
theorem count_of_struct (h : List.Forall₂ Holds fields tss) (hs : struct fields = .ok s) :
    s.count = 1 := by
  have hw := flatMap_text_of_holds h
  obtain ⟨hne, hs⟩ := struct_ok_iff.mp hs
  rw [hw] at hne hs
  cases hts : tss.flatten with
  | nil => exact absurd (congrArg Ty.renderAll hts) hne
  | cons t ts =>
    rw [hts, ← Ty.render_struct] at hs
    obtain ⟨hstandard, rfl⟩ := Ty.ofBytes_render_iff.mp hs
    exact Ty.count_signature hstandard.2

/-- Signatures hold types each, whatever limits they were accepted under. -/
theorem exists_forall₂_holds (h : ∀ f ∈ fields, ∃ limits, check limits f.text = .ok ()) :
    ∃ tss, List.Forall₂ Holds fields tss := by
  induction fields with
  | nil => exact ⟨[], .nil⟩
  | cons f fields ih =>
    obtain ⟨limits, hf⟩ := h f List.mem_cons_self
    obtain ⟨ts, hts⟩ := exists_holds hf
    obtain ⟨tss, hall⟩ := ih fun g hg => h g (List.mem_cons_of_mem f hg)
    exact ⟨ts :: tss, .cons hts hall⟩

end Signature

/-! ## The outcomes -/

/-- **What an array and a dictionary come to.** Whatever limits their arguments were made under, they
are refused for an argument of no or of several types, the key before the value; or else for the length
of what is put together; or else, for a dictionary, at a key that is not basic; or else for a depth;
and otherwise what is put together is made. -/
theorem array_dict_outcome :
    (∀ (limits : Limits) (e : Signature), check limits e.text = .ok () →
      ∃ ts, e.Holds ts ∧ ∃ o n, Signature.array e =
        if ts.length ≠ 1 then .error (.notSingle ts.length)
        else if 255 < 1 + e.length then .error (.rejected (.tooLong (1 + e.length) 255))
        else if 32 < Ty.containersAll ts + 1 ∨ 32 < Ty.entriesAll ts then
          .error (.rejected (.fault ⟨o, .tooDeep n 32⟩))
        else .ok (.ofChecked (Code.array.byte :: e.text))) ∧
    ∀ (limits limits' : Limits) (k v : Signature),
      check limits k.text = .ok () → check limits' v.text = .ok () →
      ∃ ts us, k.Holds ts ∧ v.Holds us ∧ ∃ o n, Signature.dict k v =
        if ts.length ≠ 1 then .error (.notSingle ts.length)
        else if us.length ≠ 1 then .error (.notSingle us.length)
        else if 255 < 3 + k.length + v.length then
          .error (.rejected (.tooLong (3 + k.length + v.length) 255))
        else if ¬ ts.all Ty.isBasic then .error (.rejected (.fault ⟨2, .keyNotBasic⟩))
        else if 32 < Ty.containersAll us + 1 ∨ 32 < Ty.entriesAll us + 1 then
          .error (.rejected (.fault ⟨o, .tooDeep n 32⟩))
        else .ok (.ofChecked (Code.array.byte :: Code.dictEntry.byte ::
          (k.text ++ v.text ++ [entryEnd]))) := by
  refine ⟨?_, ?_⟩
  · intro limits e he
    obtain ⟨ts, hts⟩ := Signature.exists_holds he
    exact ⟨ts, hts, Signature.array_eq hts⟩
  · intro limits limits' k v hk hv
    obtain ⟨ts, hts⟩ := Signature.exists_holds hk
    obtain ⟨us, hus⟩ := Signature.exists_holds hv
    exact ⟨ts, us, hts, hus, Signature.dict_eq hts hus⟩

/-- Thirty-two arrays, one in the other, can be made with greater limits, but there is no array of
them; and a variant is no key, however deep the value is. -/
theorem array_dict_outcome_deep :
    let deep : Ty := Ty.array^[32] (.basic .int32)
    let limits : Limits := ⟨⟨64, 64⟩, none⟩
    (check limits deep.signature.text = .ok () ∧ ∃ o n,
      Signature.array deep.signature = .error (.rejected (.fault ⟨o, .tooDeep n 32⟩))) ∧
    check limits Ty.variant.signature.text = .ok () ∧
      Signature.dict Ty.variant.signature deep.signature =
        .error (.rejected (.fault ⟨2, .keyNotBasic⟩)) := by
  intro deep limits
  have hcheck : ∀ t : Ty, Ty.Fit limits.depth [t] → check limits t.signature.text = .ok () := by
    intro t ht
    rw [t.text_signature]
    exact check_renderAll_iff.mpr ⟨fun _ hn => absurd hn (by simp [limits]), ht⟩
  have hholds : ∀ {t : Ty} {ts : List Ty}, t.signature.Holds ts → ts = [t] := fun h =>
    Ty.renderAll_inj (h.text.symm.trans (Ty.text_signature _))
  have hdeep := hcheck deep (by decide)
  have hvariant := hcheck .variant (by decide)
  obtain ⟨harrays, hdicts⟩ := array_dict_outcome
  obtain ⟨ts, hts, o, n, harray⟩ := harrays limits deep.signature hdeep
  obtain rfl := hholds hts
  obtain ⟨us, vs, hus, hvs, o', n', hdict⟩ :=
    hdicts limits limits Ty.variant.signature deep.signature hvariant hdeep
  obtain rfl := hholds hus
  obtain rfl := hholds hvs
  rw [if_neg (by decide), if_neg (by decide), if_pos (by decide)] at harray
  rw [if_neg (by decide), if_neg (by decide), if_neg (by decide), if_pos (by decide)] at hdict
  exact ⟨⟨hdeep, o, n, harray⟩, hvariant, hdict⟩

/-- **What a struct comes to.** It is the text of its fields between brackets, checked under the limits
of the protocol, so that it does not matter how the text is divided among them. Whatever limits the
fields were made under, it is refused if there is no text; or else for its length; or else for the depth
of one of its fields; and otherwise it is one type. -/
theorem struct_outcome :
    (∀ fields : List Signature, Signature.struct fields =
      Signature.ofBytes (Code.struct.byte :: (fields.flatMap (·.text) ++ [structEnd]))) ∧
    (∀ fields fields' : List Signature, fields.flatMap (·.text) = fields'.flatMap (·.text) →
      Signature.struct fields = Signature.struct fields') ∧
    ∀ fields : List Signature, (∀ f ∈ fields, ∃ limits, check limits f.text = .ok ()) →
      ∃ tss, List.Forall₂ Signature.Holds fields tss ∧
        (∃ o n, Signature.struct fields =
          if fields.flatMap (·.text) = [] then .error (.rejected (.fault ⟨1, .emptyStruct⟩))
          else if 255 < 2 + (fields.flatMap (·.text)).length then
            .error (.rejected (.tooLong (2 + (fields.flatMap (·.text)).length) 255))
          else if ∃ ts ∈ tss, 31 < Ty.containersAll ts ∨ 32 < Ty.entriesAll ts then
            .error (.rejected (.fault ⟨o, .tooDeep n 32⟩))
          else .ok (.ofChecked (Code.struct.byte :: (fields.flatMap (·.text) ++ [structEnd])))) ∧
        ∀ s, Signature.struct fields = .ok s → s.count = 1 := by
  refine ⟨Signature.struct_eq_ofBytes, ?_, ?_⟩
  · intro fields fields' h
    rw [Signature.struct_eq_ofBytes, Signature.struct_eq_ofBytes, h]
  · intro fields hfields
    obtain ⟨tss, hall⟩ := Signature.exists_forall₂_holds hfields
    exact ⟨tss, hall, Signature.struct_eq hall, fun s hs => Signature.count_of_struct hall hs⟩

/-- An empty field adds nothing to a struct, and two types in one field are two fields of it. -/
theorem struct_outcome_divided :
    let pair : Signature := .ofChecked [0x69, 0x76]
    (∀ f ∈ [Signature.empty, pair], ∃ limits, check limits f.text = .ok ()) ∧
      Signature.struct [.empty, pair] = .ok (.ofChecked [0x28, 0x69, 0x76, 0x29]) ∧
      Signature.struct [.ofChecked [0x69], .ofChecked [0x76]] = Signature.struct [.empty, pair] := by
  intro pair
  have hnone : Signature.empty.text = Ty.renderAll [] := rfl
  have hpair : pair.text = Ty.renderAll [.basic .int32, .variant] := rfl
  have hfields : ∀ f ∈ [Signature.empty, pair], ∃ limits, check limits f.text = .ok () := by
    intro f hf
    refine ⟨.standard, ?_⟩
    rcases List.mem_cons.mp hf with rfl | hf
    · rw [hnone]
      exact check_renderAll_iff.mpr ⟨by decide, by decide⟩
    · obtain rfl := List.mem_singleton.mp hf
      rw [hpair]
      exact check_renderAll_iff.mpr ⟨by decide, by decide⟩
  obtain ⟨-, hdivided, houtcome⟩ := struct_outcome
  obtain ⟨tss, htss, ⟨o, n, hstruct⟩, -⟩ := houtcome _ hfields
  obtain ⟨ts, tss, hempty, hrest, rfl⟩ := List.forall₂_cons_left_iff.mp htss
  obtain ⟨us, tss, hus, hnil, rfl⟩ := List.forall₂_cons_left_iff.mp hrest
  obtain rfl := List.forall₂_nil_left_iff.mp hnil
  obtain rfl : ts = [] := Ty.renderAll_inj hempty.text.symm
  obtain rfl : us = [.basic .int32, .variant] := Ty.renderAll_inj hus.text.symm
  rw [if_neg (by decide), if_neg (by decide), if_neg (by decide)] at hstruct
  exact ⟨hfields, hstruct, hdivided _ _ rfl⟩

end DBusTypes
