import DBusTypes.Text.Lines
import DBusTypes.Proofs.Results

/-!
# What is read, line by line

Bytes fall into lines in one way only. Of what is read every line counts, in its order: it is a text of
its own once white space is dropped, unless nothing is left then.

* `Lines` — the lines that bytes fall into
* `ofLines` — the bytes that lines come to
* `splitLines_eq_iff` — **bytes are split into their lines**
* `readTexts_ok_iff` — **the texts that are read are the trimmed lines that are not blank**
-/

namespace DBusTypes

/-- The lines that bytes fall into. A line feed ends a line; behind the last one there may be another
line, if it is not empty. -/
inductive Lines : Bytes → List Bytes → Prop
  | nil : Lines [] []
  | last {line : Bytes} (hne : line ≠ []) (hplain : 0x0a ∉ line) : Lines line [line]
  | cons {line rest : Bytes} {lines : List Bytes} (hplain : 0x0a ∉ line) (h : Lines rest lines) :
      Lines (line ++ 0x0a :: rest) (line :: lines)

/-! ## Splitting -/

/-- What has been read of a line is in front of what follows. -/
theorem lines_splitLinesFrom (line b : Bytes) (hplain : 0x0a ∉ line) :
    Lines (line.reverse ++ b) (splitLinesFrom line b) := by
  induction b generalizing line with
  | nil =>
    rw [splitLinesFrom, List.append_nil]
    by_cases hnil : line = []
    · subst hnil
      exact .nil
    · rw [if_neg (by simpa using hnil)]
      exact .last (by simpa using hnil) (by simpa using hplain)
  | cons c rest ih =>
    rw [splitLinesFrom]
    by_cases hc : c = 0x0a
    · subst hc
      rw [if_pos rfl]
      exact .cons (by simpa using hplain) (ih [] List.not_mem_nil)
    · rw [if_neg hc]
      have hline := ih (c :: line) (by
        intro hmem
        rcases List.mem_cons.mp hmem with rfl | hmem
        · exact hc rfl
        · exact hplain hmem)
      rw [List.reverse_cons, List.append_assoc] at hline
      exact hline

/-- A line without a line feed is read up to the end. -/
theorem splitLinesFrom_append (line u b : Bytes) (hplain : 0x0a ∉ u) :
    splitLinesFrom line (u ++ b) = splitLinesFrom (u.reverse ++ line) b := by
  induction u generalizing line with
  | nil => rfl
  | cons c u ih =>
    have hc : c ≠ 0x0a := by
      rintro rfl
      exact hplain List.mem_cons_self
    rw [List.cons_append, splitLinesFrom, if_neg hc,
      ih (c :: line) fun hmem => hplain (List.mem_cons_of_mem c hmem), List.reverse_cons,
      List.append_assoc]
    rfl

theorem Lines.splitLines_eq {b : Bytes} {lines : List Bytes} (h : Lines b lines) :
    splitLines b = lines := by
  unfold splitLines
  induction h with
  | nil => rfl
  | @last line hne hplain =>
    have hread := splitLinesFrom_append [] line [] hplain
    rw [List.append_nil, List.append_nil] at hread
    rw [hread, splitLinesFrom, if_neg (by simpa using hne), List.reverse_reverse]
  | @cons line rest lines hplain _ ih =>
    rw [splitLinesFrom_append [] line _ hplain, splitLinesFrom, if_pos rfl, ih, List.append_nil,
      List.reverse_reverse]

/-- **Bytes are split into their lines**, and fall into lines in no other way. -/
theorem splitLines_eq_iff {b : Bytes} {lines : List Bytes} : splitLines b = lines ↔ Lines b lines := by
  constructor
  · rintro rfl
    exact lines_splitLinesFrom [] b List.not_mem_nil
  · exact Lines.splitLines_eq

/-! ## Joining -/

/-- Lines with a line feed behind each. -/
def ofLines (lines : List Bytes) : Bytes := lines.flatMap (· ++ [0x0a])

theorem ofLines_cons (line : Bytes) (lines : List Bytes) :
    ofLines (line :: lines) = line ++ 0x0a :: ofLines lines := by
  rw [ofLines, List.flatMap_cons, List.append_assoc]
  rfl

theorem length_le_ofLines (lines : List Bytes) : lines.length ≤ (ofLines lines).length := by
  induction lines with
  | nil => exact Nat.zero_le _
  | cons line lines ih =>
    rw [ofLines_cons, List.length_cons, List.length_append, List.length_cons]
    omega

/-- Lines that have no line feed in them are told apart again. -/
theorem lines_ofLines {lines : List Bytes} (h : ∀ line ∈ lines, 0x0a ∉ line) :
    Lines (ofLines lines) lines := by
  induction lines with
  | nil => exact .nil
  | cons line lines ih =>
    rw [ofLines_cons]
    exact .cons (h line List.mem_cons_self) (ih fun l hl => h l (List.mem_cons_of_mem line hl))

/-- Splitting at line feeds gives the lines, and an empty rest. -/
theorem splitOn_ofLines {lines : List Bytes} (h : ∀ line ∈ lines, 0x0a ∉ line) :
    (ofLines lines).splitOn 0x0a = lines ++ [[]] := by
  induction lines with
  | nil => rfl
  | cons line lines ih =>
    rw [ofLines_cons, List.splitOn_append_cons_self_of_not_mem (h line List.mem_cons_self),
      ih fun l hl => h l (List.mem_cons_of_mem line hl)]
    rfl

/-! ## Texts -/

/-- The text of some bytes is the one that they are the UTF-8 form of. -/
theorem Bytes.text?_eq_some_iff {b : Bytes} {s : String} : b.text? = some s ↔ b = utf8 s := by
  unfold text? String.fromUTF8? utf8
  constructor
  · intro h
    split at h
    · obtain rfl := Option.some.inj h
      rfl
    · exact absurd h (by simp)
  · rintro rfl
    rw [dif_pos s.isValidUTF8]
    rfl

/-- The texts of lines: the lines without white space around them, but for the blank ones. -/
def textsOf (lines : List String) : List String := (lines.map trim).filter fun s => !s.isEmpty

theorem textsOf_cons (s : String) (lines : List String) :
    textsOf (s :: lines) =
      if (trim s).isEmpty then textsOf lines else trim s :: textsOf lines := by
  rw [textsOf, List.map_cons, List.filter_cons]
  cases (trim s).isEmpty <;> rfl

theorem readTextsFrom_ok_iff {n : Nat} {lines : List Bytes} {texts : List String} :
    readTextsFrom n lines = .ok texts ↔
      ∃ ss : List String, lines = ss.map utf8 ∧ texts = textsOf ss := by
  induction lines generalizing n texts with
  | nil =>
    rw [readTextsFrom]
    constructor
    · intro h
      obtain rfl := Except.ok.inj h
      exact ⟨[], rfl, rfl⟩
    · rintro ⟨ss, hss, rfl⟩
      obtain rfl := List.map_eq_nil_iff.mp hss.symm
      rfl
  | cons line lines ih =>
    rw [readTextsFrom]
    cases htext : line.text? with
    | none =>
      constructor
      · intro h
        exact absurd h (by simp)
      · rintro ⟨ss, hss, -⟩
        obtain ⟨s, ss', rfl, hs, -⟩ := List.map_eq_cons_iff.mp hss.symm
        rw [Bytes.text?_eq_some_iff.2 hs.symm] at htext
        exact absurd htext (by simp)
    | some s =>
      obtain rfl := Bytes.text?_eq_some_iff.1 htext
      constructor
      · intro h
        obtain ⟨rest, hrest, h⟩ := bind_eq_ok.mp h
        obtain ⟨ss, rfl, rfl⟩ := ih.mp hrest
        refine ⟨s :: ss, rfl, ?_⟩
        rw [textsOf_cons]
        exact (Except.ok.inj h).symm
      · rintro ⟨ss, hss, rfl⟩
        obtain ⟨s', ss', rfl, hs, hlines⟩ := List.map_eq_cons_iff.mp hss.symm
        have hsame := Bytes.text?_eq_some_iff.2 hs.symm
        rw [htext] at hsame
        obtain rfl := Option.some.inj hsame
        refine bind_eq_ok.mpr ⟨_, ih.mpr ⟨ss', hlines.symm, rfl⟩, ?_⟩
        rw [textsOf_cons]
        rfl

/-- **The texts that are read are the trimmed lines that are not blank**, in their order, and there
are none if a line is not UTF-8. -/
theorem readTexts_ok_iff {b : Bytes} {texts : List String} :
    readTexts b = .ok texts ↔
      ∃ lines : List String, Lines b (lines.map utf8) ∧ texts = textsOf lines := by
  rw [readTexts, readTextsFrom_ok_iff]
  simp only [splitLines_eq_iff]

end DBusTypes
