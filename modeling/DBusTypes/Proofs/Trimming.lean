import Mathlib.Data.List.TakeWhile
import DBusTypes.Proofs.Lines

/-!
# White space around a text

Dropping the white space around a text leaves one with none at its ends, and there is no other such text
that it is with white space around it. White space may be anything from a space to a line feed; that a
line has no line feed in it can be told from its characters as well as from its bytes.

* `Bare`, `trim_eq_iff` — **what a text is without the white space around it**
* `newline_mem_utf8_iff` — a line feed in a text, and in its bytes
-/

namespace DBusTypes

/-- Whether a text is nothing but white space. -/
def AllBlank (w : String) : Prop := ∀ c ∈ w.toList, isBlank c = true

/-- Whether a text has no white space at its ends. -/
def Bare (t : String) : Prop :=
  (∀ c ∈ t.toList.head?, isBlank c = false) ∧ ∀ c ∈ t.toList.getLast?, isBlank c = false

-- Both are told from the characters of the text, and not from all characters there are.
instance (w : String) : Decidable (AllBlank w) := List.decidableBAll _ w.toList

instance (t : String) : Decidable (Bare t) :=
  @instDecidableAnd _ _ (Option.decidableForallMem t.toList.head?)
    (Option.decidableForallMem t.toList.getLast?)

variable {s t w w' : String}

theorem AllBlank.append (h : AllBlank w) (h' : AllBlank w') : AllBlank (w ++ w') := by
  intro c hc
  rw [String.toList_append] at hc
  rcases List.mem_append.mp hc with hc | hc
  · exact h c hc
  · exact h' c hc

/-! ## Dropping -/

/-- Dropping from the front ends at the first element that is not dropped. -/
theorem dropWhile_append_of_head? {α : Type} {p : α → Bool} {l r : List α} (hl : ∀ a ∈ l, p a = true)
    (hr : ∀ a ∈ r.head?, p a = false) : (l ++ r).dropWhile p = r := by
  rw [List.dropWhile_append_of_pos hl]
  cases r with
  | nil => rfl
  | cons a r => exact List.dropWhile_cons_of_neg (by simp [hr a rfl])

/-- White space around a text is dropped. -/
theorem trim_append (hw : AllBlank w) (ht : Bare t) (hw' : AllBlank w') :
    trim (w ++ t ++ w') = t := by
  have hfront : (w ++ t ++ w').toList.dropWhile isBlank = t.toList ++ w'.toList ∨
      t.toList = [] ∧ (w ++ t ++ w').toList.dropWhile isBlank = [] := by
    rw [String.toList_append, String.toList_append, List.append_assoc]
    by_cases hnil : t.toList = []
    · rw [hnil, List.nil_append]
      refine Or.inr ⟨rfl, List.dropWhile_eq_nil_iff.mpr fun c hc => ?_⟩
      rcases List.mem_append.mp hc with hc | hc
      · exact hw c hc
      · exact hw' c hc
    · obtain ⟨a, r, hr⟩ := List.exists_cons_of_ne_nil hnil
      refine Or.inl (dropWhile_append_of_head? hw fun c hc => ht.1 c ?_)
      rw [hr] at hc ⊢
      exact hc
  unfold trim
  rcases hfront with hfront | ⟨hnil, hfront⟩
  · have hback : (t.toList ++ w'.toList).reverse.dropWhile isBlank = t.toList.reverse := by
      rw [List.reverse_append]
      refine dropWhile_append_of_head? (fun c hc => hw' c (List.mem_reverse.mp hc)) fun c hc => ?_
      rw [List.head?_reverse] at hc
      exact ht.2 c hc
    rw [hfront, hback, List.reverse_reverse, String.ofList_toList]
  · rw [hfront, ← String.ofList_toList (s := t), hnil]
    rfl

theorem isBlank_of_mem_head? {cs : List Char} {c : Char} (h : c ∈ (cs.dropWhile isBlank).head?) :
    isBlank c = false := by
  have hnot := List.head?_dropWhile_not isBlank cs
  rw [Option.mem_def.mp h] at hnot
  exact hnot

/-- A text is what is left of it, with white space around. -/
theorem exists_margins (s : String) :
    Bare (trim s) ∧ ∃ w w', AllBlank w ∧ AllBlank w' ∧ s = w ++ trim s ++ w' := by
  have hfront := List.takeWhile_append_dropWhile (p := isBlank) (l := s.toList)
  have hback := congrArg List.reverse (List.takeWhile_append_dropWhile (p := isBlank)
    (l := (s.toList.dropWhile isBlank).reverse))
  rw [List.reverse_append, List.reverse_reverse] at hback
  have htrim : (trim s).toList = ((s.toList.dropWhile isBlank).reverse.dropWhile isBlank).reverse :=
    String.toList_ofList
  rw [← htrim] at hback
  refine ⟨⟨fun c hc => ?_, fun c hc => ?_⟩,
    String.ofList (s.toList.takeWhile isBlank),
    String.ofList ((s.toList.dropWhile isBlank).reverse.takeWhile isBlank).reverse, ?_, ?_, ?_⟩
  · have hhead : c ∈ (s.toList.dropWhile isBlank).head? := by
      rw [← hback, List.head?_append, Option.mem_def.mp hc]
      rfl
    exact isBlank_of_mem_head? hhead
  · rw [htrim, List.getLast?_reverse] at hc
    exact isBlank_of_mem_head? hc
  · intro c hc
    rw [String.toList_ofList] at hc
    exact List.mem_takeWhile_imp hc
  · intro c hc
    rw [String.toList_ofList, List.mem_reverse] at hc
    exact List.mem_takeWhile_imp hc
  · rw [← String.toList_inj, String.toList_append, String.toList_append, String.toList_ofList,
      String.toList_ofList, List.append_assoc, hback, hfront]

/-- **A text without the white space around it** is the one that has none at its ends. -/
theorem trim_eq_iff : trim s = t ↔ Bare t ∧ ∃ w w', AllBlank w ∧ AllBlank w' ∧ s = w ++ t ++ w' := by
  constructor
  · rintro rfl
    exact exists_margins s
  · rintro ⟨ht, w, w', hw, hw', rfl⟩
    exact trim_append hw ht hw'

theorem trim_of_allBlank (h : AllBlank w) : trim w = "" := by
  have htrim : trim (w ++ "" ++ "") = "" := trim_append h (by decide) (by decide)
  rwa [String.append_empty, String.append_empty] at htrim

/-! ## Line feeds -/

/-- All bytes of a character beyond ASCII are beyond ASCII. -/
theorem newline_mem_utf8EncodeChar {c : Char} (h : 0x0a ∈ String.utf8EncodeChar c) : c = '\n' := by
  have hbyte : ∀ n : Nat, (0x0a : UInt8) = UInt8.ofNat n → n % 256 = 10 := by
    intro n hn
    have hsame := congrArg UInt8.toNat hn
    rw [UInt8.toNat_ofNat'] at hsame
    exact hsame.symm
  unfold String.utf8EncodeChar at h
  dsimp only at h
  split at h
  · have hc := hbyte _ (List.mem_singleton.mp h)
    refine Char.toNat_inj.mp ?_
    show c.val.toNat = 10
    omega
  · split at h
    · simp only [List.mem_cons, List.not_mem_nil, or_false] at h
      rcases h with h | h <;> have hc := hbyte _ h <;> omega
    · split at h
      · simp only [List.mem_cons, List.not_mem_nil, or_false] at h
        rcases h with h | h | h <;> have hc := hbyte _ h <;> omega
      · simp only [List.mem_cons, List.not_mem_nil, or_false] at h
        rcases h with h | h | h | h <;> have hc := hbyte _ h <;> omega

/-- A text has a line feed in it exactly if its bytes have. -/
theorem newline_mem_utf8_iff : 0x0a ∈ utf8 s ↔ '\n' ∈ s.toList := by
  rw [← String.ofList_toList (s := s), utf8_ofList, String.toList_ofList, List.mem_flatMap]
  constructor
  · rintro ⟨c, hc, hmem⟩
    obtain rfl := newline_mem_utf8EncodeChar hmem
    exact hc
  · intro h
    exact ⟨'\n', h, by decide⟩

end DBusTypes
