import DBusTypes.Serial
import DBusTypes.Proofs.Results

/-!
# When a signature is made

A signature is made of a text in one way only: the text is checked, and what comes of it is that text
outside of any variant. The builders put a text together, check it against the limits of the protocol,
and differ in what they ask for before.

* `Signature.within_ok_iff` — **a signature is made of an accepted text, and of no other**
* `Signature.array_ok_iff`, `Signature.dict_ok_iff`, `Signature.struct_ok_iff` — when a builder
  succeeds, and with what
* `Signature.ofJson_ok_iff` — when a signature is read
-/

namespace DBusTypes.Signature

variable {s : Signature}

/-- A signature is made of every text that is accepted, and of no other. -/
theorem within_ok_iff {limits : Limits} {text : Bytes} :
    within limits text = .ok s ↔ check limits text = .ok () ∧ s = ofChecked text := by
  rw [within, seq_eq_ok, mapError_eq_ok]
  exact and_congr_right fun _ => ⟨fun h => (Except.ok.inj h).symm, fun h => congrArg Except.ok h.symm⟩

theorem requireOne_ok_iff {x : Signature} : x.requireOne = .ok () ↔ x.count = 1 := by
  unfold requireOne isSingle
  by_cases h : x.count = 1
  · simp [h]
  · simp [h]

theorem array_ok_iff {element : Signature} : array element = .ok s ↔
    element.count = 1 ∧ ofBytes (Code.array.byte :: element.text) = .ok s := by
  rw [array, seq_eq_ok, requireOne_ok_iff]

theorem dict_ok_iff {key value : Signature} : dict key value = .ok s ↔
    key.count = 1 ∧ value.count = 1 ∧
      ofBytes (Code.array.byte :: Code.dictEntry.byte ::
        (key.text ++ value.text ++ [entryEnd])) = .ok s := by
  rw [dict, seq_eq_ok, seq_eq_ok, requireOne_ok_iff, requireOne_ok_iff]

theorem struct_ok_iff {fields : List Signature} : struct fields = .ok s ↔
    fields.flatMap (·.text) ≠ [] ∧
      ofBytes (Code.struct.byte :: (fields.flatMap (·.text) ++ [structEnd])) = .ok s := by
  rw [struct]
  by_cases h : fields.flatMap (·.text) = []
  · simp [h]
  · simp [h]

theorem ofJson_ok_iff {value : Json} :
    ofJson value = .ok s ↔ ∃ text, value = .string text ∧ ofBytes text = .ok s := by
  cases value with
  | string b => simp [ofJson, mapError_eq_ok]
  | null | bool b | number n | array xs | object xs => simp [ofJson]

end DBusTypes.Signature
