import DBusTypes.Json.Parser
import DBusTypes.Json.Printer

/-!
# Quoted strings

A string is written between quotes, with some of its bytes escaped. Reading takes the escapes away
again, so that every string is read back as it was, whatever bytes it has.

* `Json.escape_cases` — the three ways a byte is written
* `Json.stringTail_quoted` — **what is written between quotes is read back**
* `Json.parse_string` — the same for a string that is alone
-/

namespace DBusTypes.Json

variable {acc rest s : Bytes} {b e : UInt8}

/-! ## One byte -/

/-- A byte is written as a backslash and a letter, as a backslash and its code, or as it is. -/
theorem escape_cases (b : UInt8) :
    (∃ e, escape b = [0x5c, e] ∧ e ≠ 0x75 ∧ unescape e = some b) ∨
      (b < 0x20 ∧ escape b = 0x5c :: 0x75 :: 0x30 :: 0x30 :: (hexPair b).map Char.toUInt8) ∨
      (b ≠ 0x22 ∧ b ≠ 0x5c ∧ ¬ b < 0x20 ∧ escape b = [b]) := by
  by_cases hletter : b ∈ ([0x22, 0x5c, 0x08, 0x0c, 0x0a, 0x0d, 0x09] : List UInt8)
  · have key : ∀ b ∈ ([0x22, 0x5c, 0x08, 0x0c, 0x0a, 0x0d, 0x09] : List UInt8),
        ∃ e ∈ ([0x22, 0x5c, 0x62, 0x66, 0x6e, 0x72, 0x74] : List UInt8),
          escape b = [0x5c, e] ∧ e ≠ 0x75 ∧ unescape e = some b := by decide +kernel
    obtain ⟨e, -, he⟩ := key b hletter
    exact Or.inl ⟨e, he⟩
  · simp only [List.mem_cons, List.not_mem_nil, or_false, not_or] at hletter
    obtain ⟨hquote, hslash, hback, hfeed, hline, hreturn, htab⟩ := hletter
    rw [escape, if_neg hquote, if_neg hslash, if_neg hback, if_neg hfeed, if_neg hline,
      if_neg hreturn, if_neg htab]
    by_cases hlow : b < 0x20
    · rw [if_pos hlow]
      exact Or.inr (Or.inl ⟨hlow, rfl⟩)
    · rw [if_neg hlow]
      exact Or.inr (Or.inr ⟨hquote, hslash, hlow, rfl⟩)

theorem stringTail_letter (he : e ≠ 0x75) (h : unescape e = some b) :
    stringTail acc (0x5c :: e :: rest) = stringTail (b :: acc) rest := by
  rw [stringTail.eq_def]
  simp only [if_neg he, h]
  rfl

theorem stringTail_plain (hquote : b ≠ 0x22) (hslash : b ≠ 0x5c) (hlow : ¬ b < 0x20) :
    stringTail acc (b :: rest) = stringTail (b :: acc) rest := by
  rw [stringTail.eq_def]
  simp only [if_neg hquote, if_neg hslash, if_neg hlow]

/-- The two digits of a byte below 0x20 are read back as its code point, which is that byte. -/
theorem hexQuad_hexPair (h : b < 0x20) : ∃ h l, (hexPair b).map Char.toUInt8 = [h, l] ∧
    hexQuad 0x30 0x30 h l = some b.toNat ∧ codePoint b.toNat = [b] := by
  have hb : b.toNat < 32 := UInt8.lt_iff_toNat_lt.mp h
  have key : ∀ n < 32, hexQuad 0x30 0x30 (hexDigit (n / 16)).toUInt8 (hexDigit (n % 16)).toUInt8 =
      some n ∧ codePoint n = [UInt8.ofNat n] := by decide +kernel
  obtain ⟨hn, hc⟩ := key b.toNat hb
  rw [UInt8.ofNat_toNat] at hc
  exact ⟨_, _, rfl, hn, hc⟩

theorem stringTail_code (h : b < 0x20) :
    stringTail acc (0x5c :: 0x75 :: 0x30 :: 0x30 :: ((hexPair b).map Char.toUInt8 ++ rest)) =
      stringTail (b :: acc) rest := by
  have hb : b.toNat < 32 := UInt8.lt_iff_toNat_lt.mp h
  obtain ⟨h, l, hdigits, hquad, hcode⟩ := hexQuad_hexPair h
  -- A code point this small is not one of the two halves of a greater one.
  have hfirst : ¬ (0xd800 ≤ b.toNat ∧ b.toNat < 0xdc00) := by omega
  have hsecond : ¬ (0xdc00 ≤ b.toNat ∧ b.toNat < 0xe000) := by omega
  rw [hdigits, stringTail.eq_def]
  simp only [List.cons_append, List.nil_append, hquad, hcode, if_neg hfirst, if_neg hsecond]
  rfl

/-- **A byte is read back from the way it is written.** -/
theorem stringTail_escape (acc rest : Bytes) (b : UInt8) :
    stringTail acc (escape b ++ rest) = stringTail (b :: acc) rest := by
  rcases escape_cases b with ⟨e, hb, he, hletter⟩ | ⟨hlow, hb⟩ | ⟨hquote, hslash, hlow, hb⟩
  · rw [hb]
    exact stringTail_letter he hletter
  · rw [hb]
    exact stringTail_code hlow
  · rw [hb]
    exact stringTail_plain hquote hslash hlow

/-! ## Whole strings -/

/-- **What is written between quotes is read back**, up to the quote that ends it. -/
theorem stringTail_quoted (acc s rest : Bytes) :
    stringTail acc (s.flatMap escape ++ 0x22 :: rest) = some (acc.reverse ++ s, rest) := by
  induction s generalizing acc with
  | nil =>
    rw [List.append_nil, List.flatMap_nil, List.nil_append, stringTail.eq_def]
    rfl
  | cons b s ih =>
    rw [List.flatMap_cons, List.append_assoc, stringTail_escape, ih, List.reverse_cons,
      List.append_assoc]
    rfl

/-- Where a string is written, reading a value gives that string and what stands behind it. -/
theorem value_quoted (fuel : Nat) (s rest : Bytes) :
    value (fuel + 1) (quoted s ++ rest) = some (.string s, rest) := by
  have htail : stringTail [] (s.flatMap escape ++ [0x22] ++ rest) = some (s, rest) := by
    rw [List.append_assoc]
    exact stringTail_quoted [] s rest
  rw [quoted, List.cons_append, value, if_pos rfl, htail]
  rfl

/-- A string that is written alone is read back. -/
theorem parse_string (s : Bytes) : parse (compact (.string s)) = some (.string s) := by
  have hblank : skipBlank (quoted s) = quoted s := rfl
  have hvalue : value (2 * (quoted s).length + 2) (quoted s ++ []) = some (.string s, []) :=
    value_quoted _ s []
  rw [List.append_nil] at hvalue
  rw [parse, compact, hblank, hvalue]
  rfl

end DBusTypes.Json
