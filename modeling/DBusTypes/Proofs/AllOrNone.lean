import DBusTypes.Proofs.Redirect
import DBusTypes.Proofs.Trimming

/-!
# Reading all lines, or none

Of what is read either every line counts or none does. Blank lines give no text, but they are lines, so
that the line that is not UTF-8 is named by its place among all of them. Nothing is reported on the
lines in front of it, as all are read before the report is begun.

* `lines_append_newline` — lines are what stands between line feeds
* `BreaksAt`, `readTexts_error_iff` — **the first line that is not UTF-8**
* `Command.Reads`, `reading_all_or_none` — **what is read, or that nothing is**
-/

namespace DBusTypes

/-! ## Lines -/

variable {b : Bytes} {lines : List Bytes} {n i k : Nat}

/-- With a line feed at the very end, the lines are what stands between the line feeds in front of it. -/
theorem lines_append_newline (h : Lines b lines) : Lines (b ++ [0x0a]) (b.splitOn 0x0a) := by
  induction h with
  | nil => exact .cons List.not_mem_nil .nil
  | last hne hplain =>
    rw [List.splitOn_eq_singleton hplain]
    exact .cons hplain .nil
  | cons hplain _ ih =>
    rw [List.splitOn_append_cons_self_of_not_mem hplain, List.append_assoc, List.cons_append]
    exact .cons hplain ih

/-- Without one, they are what stands between all line feeds. -/
theorem eq_splitOn_of_lines (h : Lines b lines) (hne : b ≠ []) (hlast : b.getLast? ≠ some 0x0a) :
    lines = b.splitOn 0x0a := by
  induction h with
  | nil => exact absurd rfl hne
  | last _ hplain => rw [List.splitOn_eq_singleton hplain]
  | @cons line rest lines hplain _ ih =>
    have hrest : rest ≠ [] := by
      rintro rfl
      exact hlast List.getLast?_concat
    rw [List.append_cons, List.getLast?_append_of_ne_nil _ hrest] at hlast
    rw [List.splitOn_append_cons_self_of_not_mem hplain, ← ih hrest hlast]

/-! ## Lines that are not UTF-8 -/

/-- Whether a line is not UTF-8, and is the first of that kind. -/
structure BreaksAt (lines : List Bytes) (i : Nat) : Prop where
  broken : ∃ line, lines[i]? = some line ∧ ∀ s, line ≠ utf8 s
  whole : ∀ line ∈ lines.take i, ∃ s, line = utf8 s

theorem Bytes.text?_eq_none_iff : b.text? = none ↔ ∀ s, b ≠ utf8 s := by
  rw [Option.eq_none_iff_forall_ne_some]
  simp only [ne_eq, Bytes.text?_eq_some_iff]

theorem not_breaksAt_nil : ¬ BreaksAt [] i := by
  rintro ⟨⟨line, hline, -⟩, -⟩
  exact absurd hline (by simp)

theorem breaksAt_cons_zero {line : Bytes} : BreaksAt (line :: lines) 0 ↔ ∀ s, line ≠ utf8 s := by
  constructor
  · rintro ⟨⟨line', hline, hbroken⟩, -⟩
    obtain rfl : line = line' := Option.some.inj hline
    exact hbroken
  · intro hbroken
    exact ⟨⟨line, rfl, hbroken⟩, by simp⟩

theorem breaksAt_cons_succ {line : Bytes} :
    BreaksAt (line :: lines) (i + 1) ↔ (∃ s, line = utf8 s) ∧ BreaksAt lines i := by
  constructor
  · rintro ⟨⟨line', hline, hbroken⟩, hwhole⟩
    rw [List.take_succ_cons, List.forall_mem_cons] at hwhole
    exact ⟨hwhole.1, ⟨line', hline, hbroken⟩, hwhole.2⟩
  · rintro ⟨hfirst, ⟨line', hline, hbroken⟩, hwhole⟩
    refine ⟨⟨line', hline, hbroken⟩, ?_⟩
    rw [List.take_succ_cons, List.forall_mem_cons]
    exact ⟨hfirst, hwhole⟩

/-- Reading fails exactly if a line is not UTF-8, and at the first such line. -/
theorem readTextsFrom_error_iff :
    readTextsFrom n lines = .error k ↔ ∃ i, k = n + i ∧ BreaksAt lines i := by
  induction lines generalizing n with
  | nil =>
    constructor
    · intro h
      exact absurd h (by simp [readTextsFrom])
    · rintro ⟨i, -, hi⟩
      exact absurd hi not_breaksAt_nil
  | cons line lines ih =>
    rw [readTextsFrom]
    cases htext : line.text? with
    | none =>
      have hbroken := Bytes.text?_eq_none_iff.mp htext
      constructor
      · intro h
        exact ⟨0, (Except.error.inj h).symm, breaksAt_cons_zero.mpr hbroken⟩
      · rintro ⟨i, rfl, hi⟩
        cases i with
        | zero => rfl
        | succ i =>
          obtain ⟨⟨s, hs⟩, -⟩ := breaksAt_cons_succ.mp hi
          exact absurd hs (hbroken s)
    | some s =>
      have hs := Bytes.text?_eq_some_iff.mp htext
      constructor
      · intro h
        rcases bind_eq_error.mp h with h | ⟨rest, -, h⟩
        · obtain ⟨i, rfl, hi⟩ := ih.mp h
          exact ⟨i + 1, by omega, breaksAt_cons_succ.mpr ⟨⟨s, hs⟩, hi⟩⟩
        · exact absurd h (by simp [pure, Except.pure])
      · rintro ⟨i, rfl, hi⟩
        cases i with
        | zero => exact absurd hs (breaksAt_cons_zero.mp hi s)
        | succ i =>
          obtain ⟨-, hi⟩ := breaksAt_cons_succ.mp hi
          exact bind_eq_error.mpr (Or.inl (ih.mpr ⟨i, by omega, hi⟩))

/-- **Nothing is read if a line is not UTF-8**, and the first such line is named. -/
theorem readTexts_error_iff :
    readTexts b = .error k ↔ ∃ lines i, k = i + 1 ∧ Lines b lines ∧ BreaksAt lines i := by
  rw [readTexts, readTextsFrom_error_iff]
  constructor
  · rintro ⟨i, rfl, hi⟩
    exact ⟨_, i, Nat.add_comm 1 i, splitLines_eq_iff.mp rfl, hi⟩
  · rintro ⟨lines, i, rfl, hlines, hi⟩
    rw [hlines.splitLines_eq]
    exact ⟨i, Nat.add_comm i 1, hi⟩

namespace Command

variable {path : Path}

/-! ## All lines, or none -/

/-- What comes of reading some bytes: the texts of all lines, or the place of the first that is not
UTF-8. -/
inductive Reads (path : Path) (b : Bytes) : Except Failure (List String) → Prop
  | texts {lines : List String} (h : Lines b (lines.map utf8)) : Reads path b (.ok (textsOf lines))
  | refused {lines : List Bytes} {i : Nat} (h : Lines b lines) (hi : BreaksAt lines i) :
      Reads path b (.error (.lineNotRead (i + 1) path))

theorem interpret_content_iff {r : Except Failure (List String)} :
    interpret path (.content b) = r ↔ Reads path b r := by
  constructor
  · rintro rfl
    show Reads path b ((readTexts b).mapError (.lineNotRead · path))
    cases hread : readTexts b with
    | ok texts =>
      obtain ⟨lines, hlines, rfl⟩ := readTexts_ok_iff.mp hread
      exact .texts hlines
    | error k =>
      obtain ⟨lines, i, rfl, hlines, hi⟩ := readTexts_error_iff.mp hread
      exact .refused hlines hi
  · intro h
    cases h with
    | texts h => exact mapError_eq_ok.mpr (readTexts_ok_iff.mpr ⟨_, h, rfl⟩)
    | refused h hi =>
      exact mapError_eq_error.mpr ⟨_, readTexts_error_iff.mpr ⟨_, _, rfl, h, hi⟩, rfl⟩

/-- What a run does that has come to a line that it cannot read. -/
structure Refused (reply : Reply) (args : List String) (w : World) (line : Nat) (path : Path) :
    Prop where
  outcome : (runIn reply args w).1 = .failed (.lineNotRead line path)
  message : (Failure.lineNotRead line path).message =
    "failed to read line " ++ toString line ++ " of `" ++ String.ofList path ++ "`"
  exit : (runIn reply args w).1.exitCode = 1
  /-- No record is printed, not even for the lines in front. -/
  silent : (runIn reply args w).2.output = w.output
  untouched : (runIn reply args w).2.disk = w.disk

end Command

open Command

/-- **Either all lines are read or none is.** The texts of the lines, without the white space around them,
are all given, but for the empty ones; or the first line that is not UTF-8 is named, counted from one
among all lines, and then a run does nothing else. The lines are what stands between line feeds, where a
line feed at the very end makes no difference. -/
theorem reading_all_or_none (path : Path) (b : Bytes) :
    (∀ r, interpret path (.content b) = r ↔ Reads path b r) ∧
      (∀ s t, trim s = t ↔ Bare t ∧ ∃ w w', AllBlank w ∧ AllBlank w' ∧ s = w ++ t ++ w') ∧
      Lines (b ++ [0x0a]) (b.splitOn 0x0a) ∧
      (b ≠ [] → b.getLast? ≠ some 0x0a → Lines b (b.splitOn 0x0a)) ∧
      ∀ reply args w o line, Arguments.parse args = .ok o → o.input = some path →
        source w path = .content b → Reads path b (.error (.lineNotRead line path)) →
        Refused reply args w line path := by
  have hlines : Lines b (splitLines b) := splitLines_eq_iff.mp rfl
  refine ⟨fun r => interpret_content_iff, fun s t => trim_eq_iff, lines_append_newline hlines, ?_, ?_⟩
  · intro hne hlast
    rw [← eq_splitOn_of_lines hlines hne hlast]
    exact hlines
  · intro reply args w o line hparse hinput hsource hreads
    have hgather : gather o w = .error (.lineNotRead line path) := by
      unfold gather more
      rw [hinput]
      dsimp only
      rw [hsource, interpret_content_iff.mpr hreads]
    have hrun := runIn_of_gather_error reply hparse hgather
    refine ⟨?_, rfl, ?_, ?_, ?_⟩
    · rw [hrun]
    · rw [hrun]
      rfl
    · rw [hrun]
      exact output_afterGathering o w
    · rw [hrun]
      exact disk_afterGathering o w

/-- The third line is cut off in the middle of a character; the second is blank. -/
theorem reading_all_or_none_third :
    let b : Bytes := [0x69, 0x0a, 0x20, 0x0d, 0x0a, 0x73, 0xc3, 0x0a, 0x79]
    let w : World := ⟨⟨[], []⟩, b, []⟩
    let args := ["--input", "-"]
    let o : Options := ⟨[], some ['-'], .text, none, false, false, false, 0, 0⟩
    Arguments.parse args = .ok o ∧ o.input = some ['-'] ∧ source w ['-'] = .content b ∧
      Reads ['-'] b (.error (.lineNotRead 3 ['-'])) ∧ Refused .unasked args w 3 ['-'] ∧
      b ≠ [] ∧ b.getLast? ≠ some 0x0a ∧ Lines b (b.splitOn 0x0a) := by
  intro b w args o
  obtain ⟨hreads, -, -, hlast, hrefused⟩ := reading_all_or_none ['-'] b
  have hread : Reads ['-'] b (.error (.lineNotRead 3 ['-'])) := (hreads _).mp (by rfl)
  have hne : b ≠ [] := by decide
  have hend : b.getLast? ≠ some 0x0a := by decide
  exact ⟨rfl, rfl, rfl, hread, hrefused .unasked args w o 3 rfl rfl rfl hread, hne, hend, hlast hne hend⟩

end DBusTypes
