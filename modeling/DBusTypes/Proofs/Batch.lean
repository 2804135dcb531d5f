import DBusTypes.Command.Report

/-!
# A batch of texts

A report is made in two passes. First every text is checked, on one thread or on several; then the
verdicts are gone through beside the texts, and what is written grows while a flag keeps whether all
texts were valid.

1. However many threads there are, the verdicts are those on the single texts, in order.
2. Going through texts and verdicts adds the record of each text, and lowers the flag once a text is
   not valid.

* `Report.verdicts_eq_map` — the verdicts are those on the single texts
* `Report.Draft.output_addAll`, `Report.Draft.allValid_addAll` — **what the second pass adds to a
  report in the making**
* `Report.records_eq_flatMap`, `Report.allValid_eq_all` — **a report is the records of its texts, one
  after the other**, and says whether each is valid
* `Report.draft_congr` — what a report does not depend on
-/

namespace DBusTypes.Report

variable {o : Options} {texts : List String}

/-! ## Threads -/

/-- The verdicts do not depend on when each of them is ready. -/
theorem verdictsAtOnce_eq (o : Options) (texts : List String) :
    verdictsAtOnce o texts = verdictsInTurn o texts := by
  rw [verdictsAtOnce, verdictsInTurn, List.map_map]
  rfl

/-- **The verdicts are those on the single texts**, whatever the number of threads. -/
theorem verdicts_eq_map (o : Options) (texts : List String) :
    verdicts o texts = texts.map (verdict o) := by
  unfold verdicts
  split
  · rfl
  · exact verdictsAtOnce_eq o texts

/-- A text stands beside the verdict on it. -/
theorem zip_verdicts (o : Options) (texts : List String) :
    texts.zip (verdicts o texts) = texts.map fun text => (text, verdict o text) := by
  rw [verdicts_eq_map, ← List.map_prod_left_eq_zip]

/-! ## Writing -/

theorem Draft.output_add (o : Options) (d : Draft) (text : String) (r : Except BuildError Signature) :
    (d.add o text r).output.toList = d.output.toList ++ written o text r := by
  exact Array.toList_appendList

theorem Draft.allValid_add (o : Options) (d : Draft) (text : String)
    (r : Except BuildError Signature) :
    (d.add o text r).allValid = (d.allValid && r.isOk) := by
  cases h : r.isOk <;> simp [Draft.add, h]

/-- **Every text adds its record**, behind what was written before. -/
theorem Draft.output_addAll (o : Options) (d : Draft)
    (xs : List (String × Except BuildError Signature)) :
    (d.addAll o xs).output.toList = d.output.toList ++ xs.flatMap fun x => written o x.1 x.2 := by
  induction xs generalizing d with
  | nil => exact (List.append_nil _).symm
  | cons x xs ih =>
    rw [List.flatMap_cons, ← List.append_assoc, ← output_add]
    exact ih (d.add o x.1 x.2)

/-- **The flag stays up for as long as all texts are valid**, and is never put up again. -/
theorem Draft.allValid_addAll (o : Options) (d : Draft)
    (xs : List (String × Except BuildError Signature)) :
    (d.addAll o xs).allValid = (d.allValid && xs.all fun x => x.2.isOk) := by
  induction xs generalizing d with
  | nil => exact (Bool.and_true _).symm
  | cons x xs ih =>
    rw [List.all_cons, ← Bool.and_assoc, ← allValid_add o d x.1]
    exact ih (d.add o x.1 x.2)

/-- **A report is the records of its texts, one after the other.** -/
theorem records_eq_flatMap (o : Options) (texts : List String) :
    records o texts = texts.flatMap (record o) := by
  rw [records, draft, Draft.output_addAll, zip_verdicts, List.flatMap_map]
  rfl

/-- A report says whether each of its texts is valid. -/
theorem allValid_eq_all (o : Options) (texts : List String) :
    allValid o texts = texts.all fun text => (verdict o text).isOk := by
  rw [allValid, draft, Draft.allValid_addAll, zip_verdicts, List.all_map]
  rfl

/-- A report does not depend on the number of threads, nor on how much is said about the work. -/
theorem draft_congr (n verbosity : Nat) :
    draft { o with threads := n, verbosity := verbosity } texts = draft o texts := by
  rw [draft, draft, zip_verdicts, zip_verdicts]
  rfl

end DBusTypes.Report
