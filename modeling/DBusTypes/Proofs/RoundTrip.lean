import DBusTypes.Proofs.Alone
import DBusTypes.Proofs.Outcomes
import DBusTypes.Proofs.Quoting
import DBusTypes.Proofs.Sessions

/-!
# Written and read back

A signature is written as its text, and what is read is checked under the limits of the protocol. A
signature that was made under wider limits, or that was cut out of one, need not keep these, and
whether it does can be told from its length and its depth alone.

* `Signature.ReadBack` — what reading a signature back comes to
* `Signature.Made` — the signatures that come about under the limits of the protocol only
* `round_trip` — **whatever is written is read back, or refused for its size**
-/

namespace DBusTypes

namespace Signature

variable {s x : Signature} {ts : List Ty} {text : Bytes}

/-! ## Signatures made under any limits -/

/-- What reading back a signature of these types comes to. -/
structure ReadBack (x : Signature) (ts : List Ty) : Prop where
  parsed : Json.parse (Json.compact x.toJson) = some x.toJson
  ok_iff : (∃ y, ofJson x.toJson = .ok y) ↔
    x.length ≤ 255 ∧ Ty.containersAll ts ≤ 32 ∧ Ty.entriesAll ts ≤ 32
  same : ∀ y, ofJson x.toJson = .ok y → (y == x) = true ∧ y.level = 0
  tooLong : 255 < x.length →
    ofJson x.toJson = .error (.invalid (.rejected (.tooLong x.length 255)))
  tooDeep : x.length ≤ 255 → 32 < Ty.containersAll ts ∨ 32 < Ty.entriesAll ts →
    ∃ o n, ofJson x.toJson = .error (.invalid (.rejected (.fault ⟨o, .tooDeep n 32⟩)))

/-- A signature that is accepted under the limits of the protocol is read back without its level. -/
theorem ofJson_toJson (h : check .standard x.text = .ok ()) :
    ofJson x.toJson = .ok (.ofChecked x.text) :=
  ofJson_ok_iff.mpr ⟨x.text, rfl, within_ok_iff.mpr ⟨h, rfl⟩⟩

/-- What is read comes to what its types come to under the limits of the protocol. -/
theorem Holds.ofJson_eq (h : x.Holds ts) : ∃ o n,
    ofJson x.toJson =
      if 255 < x.length then .error (.invalid (.rejected (.tooLong x.length 255)))
      else if 32 < Ty.containersAll ts ∨ 32 < Ty.entriesAll ts then
        .error (.invalid (.rejected (.fault ⟨o, .tooDeep n 32⟩)))
      else .ok (.ofChecked x.text) := by
  obtain ⟨o, n, hmade⟩ := Ty.ofBytes_renderAll ts
  refine ⟨o, n, ?_⟩
  rw [toJson, ofJson, length, h.text, hmade]
  by_cases hlong : 255 < (Ty.renderAll ts).length
  · rw [if_pos hlong, if_pos hlong]
    rfl
  · by_cases hdeep : 32 < Ty.containersAll ts ∨ 32 < Ty.entriesAll ts
    · rw [if_neg hlong, if_neg hlong, if_pos hdeep, if_pos hdeep]
      rfl
    · rw [if_neg hlong, if_neg hlong, if_neg hdeep, if_neg hdeep]
      rfl

/-- **A signature is read back, or else it is too long, or else it is too deep.** -/
theorem Holds.readBack (h : x.Holds ts) : x.ReadBack ts := by
  obtain ⟨o, n, hread⟩ := h.ofJson_eq
  have hlong : 255 < x.length →
      ofJson x.toJson = .error (.invalid (.rejected (.tooLong x.length 255))) := by
    intro hl
    rw [hread, if_pos hl]
  have hdeep : x.length ≤ 255 → 32 < Ty.containersAll ts ∨ 32 < Ty.entriesAll ts →
      ofJson x.toJson = .error (.invalid (.rejected (.fault ⟨o, .tooDeep n 32⟩))) := by
    intro hl hd
    rw [hread, if_neg (Nat.not_lt.mpr hl), if_pos hd]
  refine ⟨Json.parse_string x.text, ⟨?_, ?_⟩, ?_, hlong, fun hl hd => ⟨o, n, hdeep hl hd⟩⟩
  · rintro ⟨y, hy⟩
    by_cases hl : 255 < x.length
    · rw [hlong hl] at hy
      simp at hy
    · by_cases hd : 32 < Ty.containersAll ts ∨ 32 < Ty.entriesAll ts
      · rw [hdeep (Nat.not_lt.mp hl) hd] at hy
        simp at hy
      · omega
  · rintro ⟨hl, hc, he⟩
    refine ⟨.ofChecked x.text, ?_⟩
    rw [hread, if_neg (Nat.not_lt.mpr hl), if_neg (by omega)]
  · intro y hy
    obtain ⟨text, htext, hy⟩ := ofJson_ok_iff.mp hy
    obtain rfl := Json.string.inj htext
    obtain ⟨-, rfl⟩ := within_ok_iff.mp hy
    exact ⟨(beq_iff _ _).mpr rfl, rfl⟩

/-! ## Signatures made under the limits of the protocol -/

/-- The signatures that are made without limits of one's own: of a text, by a builder of whatever
signatures, by reading, or of an item of such a signature. -/
inductive Made : Signature → Prop
  | empty : Made empty
  | text {b : Bytes} {s : Signature} (h : ofBytes b = .ok s) : Made s
  | array {e s : Signature} (h : Signature.array e = .ok s) : Made s
  | dict {k v s : Signature} (h : Signature.dict k v = .ok s) : Made s
  | struct {fields : List Signature} {s : Signature} (h : Signature.struct fields = .ok s) : Made s
  | read {value : Json} {s : Signature} (h : ofJson value = .ok s) : Made s
  | level {s : Signature} (h : Made s) (level : UInt32) : Made (s.withLevel level)
  | item {s : Signature} {p : Portion} (h : Made s) (hp : p ∈ s.portions.toList) : Made p.signature

theorem check_of_ofBytes (h : ofBytes text = .ok s) : check .standard s.text = .ok () := by
  obtain ⟨hc, rfl⟩ := within_ok_iff.mp h
  exact hc

/-- **What is made without other limits keeps those of the protocol**, also where nothing is checked. -/
theorem Made.check_eq (h : s.Made) : check .standard s.text = .ok () := by
  induction h with
  | empty =>
    show check .standard (Ty.renderAll []) = .ok ()
    exact check_renderAll_iff.mpr ⟨fun n _ => Nat.zero_le n, by decide⟩
  | text h => exact check_of_ofBytes h
  | array h => exact check_of_ofBytes (array_ok_iff.mp h).2
  | dict h => exact check_of_ofBytes (dict_ok_iff.mp h).2.2
  | struct h => exact check_of_ofBytes (struct_ok_iff.mp h).2
  | read h =>
    obtain ⟨text, -, h⟩ := ofJson_ok_iff.mp h
    exact check_of_ofBytes h
  | level h level ih => exact ih
  | item h hp ih => exact (Portion.alone_of_mem ih hp).accepted

end Signature

/-- **Whatever is written is read back, or refused for its size.** Let any steps lead to a signature.
It is read back from what it is written as if its text has at most 255 bytes and there are never more
than 32 arrays and structs, nor more than 32 dict-entries, open in it. What is read is equal to it and
has level 0. Otherwise it is refused as too long, or else, if its length is allowed, as too deep. What
was made under the limits of the protocol is always read back. -/
theorem round_trip :
    (∀ steps x, Session.Obtained steps x → ∃ ts, x.Holds ts ∧ x.ReadBack ts) ∧
    ∀ x : Signature, x.Made →
      ∃ y, Signature.ofJson x.toJson = .ok y ∧ (y == x) = true ∧ y.level = 0 := by
  refine ⟨?_, ?_⟩
  · intro steps x hx
    obtain ⟨ts, hts⟩ := hx.sound.exists_holds
    exact ⟨ts, hts, hts.readBack⟩
  · intro x hx
    exact ⟨_, Signature.ofJson_toJson hx.check_eq, (Signature.beq_iff _ _).mpr rfl, rfl⟩

/-- Thirty-three arrays, one in the other, are a signature under wider limits, but are not read back;
and `a{sv}` at level 3 is read back at level 0. -/
theorem round_trip_deep :
    let deep : Ty := Ty.array^[33] (.basic .int32)
    let steps : List Step := [.new (.within ⟨⟨64, 64⟩, none⟩ deep.signature.text) (some "x")]
    let asv : Signature := (Ty.dict .string .variant).signature.withLevel 3
    (Session.Obtained steps deep.signature ∧ ∃ o n, Signature.ofJson deep.signature.toJson =
      .error (.invalid (.rejected (.fault ⟨o, .tooDeep n 32⟩)))) ∧
    asv.Made ∧ ∃ y, Signature.ofJson asv.toJson = .ok y ∧ (y == asv) = true ∧ y.level = 0 := by
  intro deep steps asv
  have hmade : (Origin.within ⟨⟨64, 64⟩, none⟩ deep.signature.text).signature =
      .ok deep.signature := by
    refine Signature.within_ok_iff.mpr ⟨?_, rfl⟩
    rw [deep.text_signature]
    exact check_renderAll_iff.mpr ⟨by simp, by decide⟩
  have hobtained : Session.Obtained steps deep.signature := Session.obtained_new hmade _
  have hasv : asv.Made := by
    have hstandard : (Ty.dict .string .variant).Standard := ⟨by decide, by decide⟩
    exact .level (.text hstandard.ofBytes) 3
  obtain ⟨hall, hstandard⟩ := round_trip
  obtain ⟨ts, hts, hback⟩ := hall steps deep.signature hobtained
  obtain rfl : ts = [deep] := Ty.renderAll_inj (hts.text.symm.trans deep.text_signature)
  exact ⟨⟨hobtained, hback.tooDeep (by decide) (by decide)⟩, hasv, hstandard asv hasv⟩

end DBusTypes
