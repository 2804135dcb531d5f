import DBusTypes.Json.Parser
import DBusTypes.Json.Printer

/-!
# Whole numbers in decimal digits

A whole number is written without an exponent and without zeros in front that it could do without. It
is read back as that number if what follows does not go on with it.

* `Json.ofDigits_toString` — the digits of a number have its value
* `Json.EndsNumber` — whether bytes leave the number in front of them alone
* `Json.signed_toString` — **a whole number is read back**
-/

namespace DBusTypes

/-- Each character below 128 is one byte. -/
theorem utf8_ofList_ascii {cs : List Char} (h : ∀ c ∈ cs, c.toNat < 128) :
    utf8 (String.ofList cs) = cs.map Char.toUInt8 := by
  rw [utf8_ofList]
  induction cs with
  | nil => rfl
  | cons c cs ih =>
    have hc : c.val.toNat ≤ 0x7f := Nat.le_of_lt_succ (h c List.mem_cons_self)
    rw [List.flatMap_cons, ih fun d hd => h d (List.mem_cons_of_mem c hd),
      String.utf8EncodeChar_eq_singleton (Char.utf8Size_eq_one_iff.mpr hc)]
    rfl

namespace Json

variable {rest : Bytes} {n : Nat} {c : Char}

/-! ## Digits -/

theorem toNat_of_isDigit (h : c.isDigit = true) : 48 ≤ c.toNat ∧ c.toNat ≤ 57 := by
  simp only [Char.isDigit, ge_iff_le, Bool.and_eq_true, decide_eq_true_eq] at h
  exact h

theorem toNat_toUInt8_of_isDigit (h : c.isDigit = true) : c.toUInt8.toNat = c.toNat := by
  obtain ⟨-, hle⟩ := toNat_of_isDigit h
  show c.toNat % 256 = c.toNat
  omega

theorem isDigit_of_mem_toDigits (h : c ∈ Nat.toDigits 10 n) : c.isDigit = true :=
  Nat.isDigit_of_mem_toDigits (by decide) (by decide) h

theorem utf8_toString (n : Nat) : utf8 (toString n) = (Nat.toDigits 10 n).map Char.toUInt8 := by
  rw [Nat.toString_eq_ofList_toDigits]
  refine utf8_ofList_ascii fun c hc => ?_
  obtain ⟨-, hle⟩ := toNat_of_isDigit (isDigit_of_mem_toDigits hc)
  omega

theorem toString_ne_nil (n : Nat) : utf8 (toString n) ≠ [] := by
  rw [utf8_toString]
  simp

theorem isDigit_of_mem_toString {b : UInt8} (h : b ∈ utf8 (toString n)) : isDigit b = true := by
  rw [utf8_toString] at h
  obtain ⟨c, hc, rfl⟩ := List.mem_map.mp h
  have hdigit := isDigit_of_mem_toDigits hc
  rw [isDigit, Bool.and_eq_true, decide_eq_true_eq, decide_eq_true_eq, UInt8.le_iff_toNat_le,
    UInt8.le_iff_toNat_le, toNat_toUInt8_of_isDigit hdigit]
  exact toNat_of_isDigit hdigit

/-- The digits of a number have its value. -/
theorem ofDigits_toString (n : Nat) : ofDigits (utf8 (toString n)) = n := by
  have key : ∀ (cs : List Char) (m : Nat), (∀ c ∈ cs, c.isDigit = true) →
      (digitValues (cs.map Char.toUInt8)).foldl (fun n d => 10 * n + d) m =
        Nat.ofDigitChars 10 cs m := by
    intro cs
    induction cs with
    | nil => intro m _; rfl
    | cons c cs ih =>
      intro m h
      rw [Nat.ofDigitChars_cons, ← ih _ fun d hd => h d (List.mem_cons_of_mem c hd)]
      simp only [digitValues, List.map_cons, List.foldl_cons,
        toNat_toUInt8_of_isDigit (h c List.mem_cons_self)]
      rfl
  rw [utf8_toString, ofDigits, key _ _ fun c hc => isDigit_of_mem_toDigits hc]
  exact Nat.ofDigitChars_ten_toDigits

/-- No number but zero starts with a zero. -/
theorem head?_toDigits (h : n ≠ 0) : (Nat.toDigits 10 n).head? ≠ some '0' := by
  induction n using Nat.base_induction 10 (by decide) with
  | single m hm =>
    rw [Nat.toDigits_of_lt_base hm]
    have key : ∀ m < 10, m ≠ 0 → m.digitChar ≠ '0' := by decide
    simpa using key m hm h
  | digit m k hk hm ih =>
    obtain ⟨c, cs, hcs⟩ := List.exists_cons_of_ne_nil (Nat.toDigits_ne_nil (n := m) (b := 10))
    rw [hcs] at ih
    rw [← Nat.toDigits_append_toDigits (by decide) hm hk, hcs]
    exact ih (by omega)

/-- A zero in front is all there is of a number. -/
theorem leading_toString (n : Nat) :
    ((utf8 (toString n)).head? == some 0x30 && (utf8 (toString n)).length != 1) = false := by
  by_cases hn : n = 0
  · subst hn
    rfl
  · have hzero : (utf8 (toString n)).head? ≠ some 0x30 := by
      rw [utf8_toString, List.head?_map]
      intro h
      obtain ⟨c, hc, hbyte⟩ := Option.map_eq_some_iff.mp h
      have hsame := toNat_toUInt8_of_isDigit (isDigit_of_mem_toDigits (List.mem_of_mem_head? hc))
      rw [hbyte] at hsame
      refine head?_toDigits hn ?_
      rw [hc]
      exact congrArg some (Char.toNat_inj.mp hsame.symm)
    rw [beq_eq_false_iff_ne.mpr hzero, Bool.false_and]

/-! ## Where a number ends -/

/-- Whether bytes do not go on with a number that is in front of them. -/
def EndsNumber (b : Bytes) : Prop :=
  ∀ c ∈ b.head?, isDigit c = false ∧ c ≠ 0x2e ∧ c ≠ 0x65 ∧ c ≠ 0x45

namespace EndsNumber

theorem takeWhile (h : EndsNumber rest) : rest.takeWhile isDigit = [] := by
  cases rest with
  | nil => rfl
  | cons c rest => exact List.takeWhile_cons_of_neg (by simp [(h c rfl).1])

theorem dropWhile (h : EndsNumber rest) : rest.dropWhile isDigit = rest := by
  cases rest with
  | nil => rfl
  | cons c rest => exact List.dropWhile_cons_of_neg (by simp [(h c rfl).1])

theorem fraction (h : EndsNumber rest) : fraction rest = some (none, rest) := by
  cases rest with
  | nil => rfl
  | cons c rest => rw [Json.fraction, if_neg (h c rfl).2.1]

theorem exponent (h : EndsNumber rest) : exponent rest = some (none, rest) := by
  cases rest with
  | nil => rfl
  | cons c rest =>
    obtain ⟨-, -, he, hE⟩ := h c rfl
    rw [Json.exponent.eq_def]
    exact if_neg (by simp [he, hE])

end EndsNumber

/-! ## Whole numbers -/

theorem unsigned_toString (negative : Bool) (hn : negative = true → n ≠ 0) (h : EndsNumber rest) :
    unsigned negative (utf8 (toString n) ++ rest) =
      some (.whole (if negative then -n else n), rest) := by
  have hdigits : ∀ b ∈ utf8 (toString n), isDigit b = true := fun b => isDigit_of_mem_toString
  have htake : (utf8 (toString n) ++ rest).takeWhile isDigit = utf8 (toString n) := by
    rw [List.takeWhile_append_of_pos hdigits, h.takeWhile, List.append_nil]
  have hdrop : (utf8 (toString n) ++ rest).dropWhile isDigit = rest := by
    rw [List.dropWhile_append_of_pos hdigits, h.dropWhile]
  have hempty : (utf8 (toString n)).isEmpty = false := by
    simpa using toString_ne_nil n
  have hzero : (negative && n == 0) = false := by
    cases negative with
    | false => rfl
    | true => simpa using hn rfl
  simp only [unsigned, htake, hdrop, hempty, leading_toString, h.fraction, ofDigits_toString, hzero,
    Bool.or_self, Bool.false_eq_true, if_false]
  show (exponent rest >>= _) = _
  rw [h.exponent]
  rfl

/-- A number starts with a digit, or with the sign that it is negative. -/
theorem head_toString (n : Int) :
    ∃ c r, utf8 (toString n) = c :: r ∧ (c = 0x2d ∨ isDigit c = true) := by
  cases n with
  | ofNat n =>
    obtain ⟨c, r, hn⟩ := List.exists_cons_of_ne_nil (toString_ne_nil n)
    have hmem : c ∈ utf8 (toString n) := by
      rw [hn]
      exact List.mem_cons_self
    exact ⟨c, r, hn, Or.inr (isDigit_of_mem_toString hmem)⟩
  | negSucc n =>
    refine ⟨0x2d, utf8 (toString (n + 1)), ?_, Or.inl rfl⟩
    show utf8 ("-" ++ toString (n + 1)) = _
    rw [utf8_append]
    rfl

/-- **A whole number is read back**, if what follows does not go on with it. -/
theorem signed_toString (n : Int) (h : EndsNumber rest) :
    signed (utf8 (toString n) ++ rest) = some (.whole n, rest) := by
  cases n with
  | ofNat n =>
    obtain ⟨c, r, hn⟩ := List.exists_cons_of_ne_nil (toString_ne_nil n)
    have hminus : c ≠ 0x2d := by
      rintro rfl
      have hdigit : isDigit 0x2d = true := isDigit_of_mem_toString (n := n) (by
        rw [hn]
        exact List.mem_cons_self)
      exact absurd hdigit (by decide)
    have hread := unsigned_toString (n := n) false (by simp) h
    show signed (utf8 (toString n) ++ rest) = _
    rw [hn, List.cons_append] at hread ⊢
    rw [signed, if_neg hminus, hread]
    rfl
  | negSucc n =>
    show signed (utf8 ("-" ++ toString (n + 1)) ++ rest) = _
    rw [utf8_append, List.append_assoc]
    show signed (0x2d :: (utf8 (toString (n + 1)) ++ rest)) = _
    rw [signed, if_pos rfl, unsigned_toString true (by simp) h]
    rfl

end Json

end DBusTypes
