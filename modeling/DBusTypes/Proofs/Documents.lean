import Mathlib.Data.List.Forall2
import DBusTypes.Proofs.Operands
import DBusTypes.Proofs.Redirect
import DBusTypes.Proofs.Written

/-!
# Reading a report back

A report in JSON is read back record by record. On one line each, the records are told apart by line
feeds alone, as no line feed is printed inside a record, whatever the texts have in them. Over several
lines each, they are told apart by reading one value behind the other.

* `Json.newline_not_mem_compact` — a value on one line has no line feed in it
* `Json.parseAll`, `parseAll_written` — reading values one behind the other
* `Report.Decoded` — what is read of a record
* `Report.ReadBack`, `reports_read_back` — **a report is read back, in both formats**
-/

namespace DBusTypes

namespace Json

variable {j : Json} {u w rest : Bytes} {ms : List (Bytes × Json)} {xs : List Json}

/-! ## One line -/

theorem newline_not_mem_escape (b : UInt8) : 0x0a ∉ escape b := by
  have key : ∀ n < 256, 0x0a ∉ escape (UInt8.ofNat n) := by decide +kernel
  have hb := key b.toNat b.toNat_lt
  rwa [UInt8.ofNat_toNat] at hb

theorem newline_not_mem_quoted (s : Bytes) : 0x0a ∉ quoted s := by
  simp [quoted, newline_not_mem_escape]

theorem newline_not_mem_toString (n : Nat) : 0x0a ∉ utf8 (toString n) := fun hmem =>
  absurd (isDigit_of_mem_toString hmem) (by decide)

theorem newline_not_mem_whole (n : Int) : 0x0a ∉ numeral (.whole n) := by
  cases n with
  | ofNat n => exact newline_not_mem_toString n
  | negSucc n =>
    show 0x0a ∉ utf8 ("-" ++ toString (n + 1))
    rw [utf8_append, List.mem_append, not_or]
    exact ⟨by decide, newline_not_mem_toString (n + 1)⟩

theorem newline_not_mem_compactItems (h : ∀ x ∈ xs, 0x0a ∉ compact x) :
    0x0a ∉ compactItems xs := by
  induction xs with
  | nil => decide
  | cons x xs ih =>
    have hx := h x List.mem_cons_self
    have hxs := ih fun y hy => h y (List.mem_cons_of_mem x hy)
    simp [compactItems, hx, hxs]

theorem newline_not_mem_compactMembers (h : ∀ m ∈ ms, 0x0a ∉ compact m.2) :
    0x0a ∉ compactMembers ms := by
  induction ms with
  | nil => decide
  | cons m ms ih =>
    have hm := h m List.mem_cons_self
    have hms := ih fun m' hm' => h m' (List.mem_cons_of_mem m hm')
    simp [compactMembers, newline_not_mem_quoted, hm, hms]

/-- **A value on one line has no line feed in it**, whatever its strings have in them. -/
theorem newline_not_mem_compact (h : j.Whole) : 0x0a ∉ compact j := by
  induction h with
  | null => decide
  | bool b => cases b <;> decide
  | number n => exact newline_not_mem_whole n
  | string s => exact newline_not_mem_quoted s
  | @array xs _ ih =>
    cases xs with
    | nil => decide
    | cons x xs =>
      have hx := ih x List.mem_cons_self
      have hxs := newline_not_mem_compactItems fun y hy => ih y (List.mem_cons_of_mem x hy)
      simp [compact, hx, hxs]
  | @object ms _ ih =>
    cases ms with
    | nil => decide
    | cons m ms =>
      have hm := ih m List.mem_cons_self
      have hms := newline_not_mem_compactMembers fun m' hm' => ih m' (List.mem_cons_of_mem m hm')
      simp [compact, newline_not_mem_quoted, hm, hms]

/-! ## One value behind the other -/

/-- The values that bytes are written for, one behind the other, where there are fewer than `fuel`. -/
def values : Nat → Bytes → Option (List Json)
  | 0, _ => none
  | fuel + 1, b =>
    match skipBlank b with
    | [] => some []
    | c :: r =>
      match value (2 * (c :: r).length) (c :: r) with
      | none => none
      | some (j, rest) => (values fuel rest).map fun js => j :: js

/-- The values that a text is written for, one behind the other, with blanks between them. -/
def parseAll (b : Bytes) : Option (List Json) := values (b.length + 1) b

/-- Blanks in front of a value are skipped. -/
theorem values_append (hw : Blank w) (fuel : Nat) (b : Bytes) :
    values fuel (w ++ b) = values fuel b := by
  cases fuel with
  | zero => rfl
  | succ fuel => rw [values, values, skipBlank_append hw]

/-- A value in front of others is read first. -/
theorem values_cons (h : Written j u) (hr : EndsNumber rest) (fuel : Nat) :
    values (fuel + 1) (u ++ rest) = (values fuel rest).map fun js => j :: js := by
  have hread : value (2 * (u ++ rest).length) (u ++ rest) = some (j, rest) :=
    value_written h (by rw [List.length_append]; omega) hr
  have hskip : skipBlank (u ++ rest) = u ++ rest := skipBlank_of_solid (h.solid.append rest)
  obtain ⟨c, r, rfl, -⟩ := h.head
  rw [List.cons_append] at hread hskip ⊢
  rw [values, hskip]
  dsimp only
  rw [hread]

theorem values_written {write : Json → Bytes} {js : List Json} (h : ∀ j ∈ js, Written j (write j))
    {fuel : Nat} (hf : js.length < fuel) : values fuel (ofLines (js.map write)) = some js := by
  induction js generalizing fuel with
  | nil =>
    cases fuel with
    | zero => exact absurd hf (Nat.not_lt_zero _)
    | succ fuel => rfl
  | cons j js ih =>
    cases fuel with
    | zero => exact absurd hf (Nat.not_lt_zero _)
    | succ fuel =>
      -- The line feed behind a value is a blank in front of the next.
      have hrest : values fuel (0x0a :: ofLines (js.map write)) = some js := by
        rw [← ih (fun x hx => h x (List.mem_cons_of_mem j hx)) (Nat.lt_of_succ_lt_succ hf)]
        exact values_append (blank_newline 0) fuel _
      rw [List.map_cons, ofLines_cons,
        values_cons (h j List.mem_cons_self) (endsNumber_cons (Or.inl rfl) _), hrest]
      rfl

/-- **Values on lines of their own are read back**, in whatever way they are written. -/
theorem parseAll_written {write : Json → Bytes} {js : List Json}
    (h : ∀ j ∈ js, Written j (write j)) : parseAll (ofLines (js.map write)) = some js := by
  have hlength := length_le_ofLines (js.map write)
  rw [List.length_map] at hlength
  exact values_written h (Nat.lt_succ_of_le hlength)

/-! ## Members -/

/-- The value of a key of an object whose keys are given as texts. -/
theorem get?_record (key : String) (ms : List (String × Json)) :
    (record ms).get? key = (ms.find? fun m => m.1 == key).map Prod.snd := by
  have hkey : (fun m : String × Json => utf8 m.1 == utf8 key) = fun m => m.1 == key := by
    funext m
    exact Bool.eq_iff_iff.mpr (by simp only [beq_iff_eq, utf8_inj])
  rw [record, get?, List.find?_map, Option.map_map]
  exact congrArg (fun p => (ms.find? p).map Prod.snd) hkey

theorem whole_record {ms : List (String × Json)} (h : ∀ m ∈ ms, m.2.Whole) : (record ms).Whole := by
  refine .object fun m hm => ?_
  obtain ⟨m', hm', rfl⟩ := List.mem_map.mp hm
  exact h m' hm'

end Json

namespace Report

open Json

variable {o : Options} {text : String} {texts : List String}

/-! ## Records -/

theorem whole_treeJson : ∀ t : TypeTree, (treeJson t).Whole
  | .node x children => by
    have hchildren : ∀ j ∈ children.map treeJson, j.Whole := by
      intro j hj
      obtain ⟨t, ht, rfl⟩ := List.mem_map.mp hj
      exact whole_treeJson t
    rw [treeJson]
    refine whole_record ?_
    simp only [List.forall_mem_cons]
    exact ⟨.string _, .string _, .number _, .array hchildren, by simp⟩

theorem whole_typesJson (tree : Bool) (s : Signature) : (typesJson tree s).Whole := by
  refine .array fun j hj => ?_
  split at hj
  · obtain ⟨t, -, rfl⟩ := List.mem_map.mp hj
    exact whole_treeJson t
  · obtain ⟨x, -, rfl⟩ := List.mem_map.mp hj
    exact .string _

theorem whole_errorJson (e : BuildError) : (errorJson e).Whole := by
  refine whole_record ?_
  simp only [List.forall_mem_cons]
  cases e with
  | rejected r => exact ⟨.string _, .number _, .string _, by simp⟩
  | notSingle n | outOfMemory n => exact ⟨.null, .null, .string _, by simp⟩

/-- All numbers in a record are whole. -/
theorem whole_jsonRecord (tree : Bool) (text : String) (r : Except BuildError Signature) :
    (jsonRecord tree text r).Whole := by
  cases r with
  | ok s =>
    refine whole_record ?_
    simp only [List.forall_mem_cons]
    exact ⟨.string _, .bool _, whole_typesJson tree s, by simp⟩
  | error e =>
    refine whole_record ?_
    simp only [List.forall_mem_cons]
    exact ⟨.string _, .bool _, whole_errorJson e, by simp⟩

/-- What is read of a record: its text, whether that is a signature, and if it is none then why. -/
structure Decoded (o : Options) (text : String) (j : Json) : Prop where
  /-- It is an object, and no key of it is given twice. -/
  object : ∃ members, j = .object members ∧ (members.map Prod.fst).Nodup
  signature : j.get? "signature" = some (.text text)
  valid : ∃ valid, j.get? "valid" = some (.bool valid) ∧
    (valid = true ↔ check (limits o) (utf8 text) = .ok ())
  error : ∀ r, check (limits o) (utf8 text) = .error r → ∃ e, j.get? "error" = some e ∧
    e.get? "kind" = some (.text r.kind) ∧ e.get? "offset" = some (.nat r.offset) ∧
    e.get? "message" = some (.text ("corrupt type signature: " ++ r.message))

theorem get?_jsonRecord (tree : Bool) (text : String) (r : Except BuildError Signature) :
    (jsonRecord tree text r).get? "signature" = some (.text text) ∧
      (jsonRecord tree text r).get? "valid" = some (.bool r.isOk) := by
  obtain ⟨last, hlast⟩ := jsonRecord_eq tree text r
  rw [hlast, get?_record, get?_record]
  exact ⟨rfl, rfl⟩

theorem object_jsonRecord (tree : Bool) (text : String) (r : Except BuildError Signature) :
    ∃ members, jsonRecord tree text r = .object members ∧ (members.map Prod.fst).Nodup := by
  cases r with
  | ok s =>
    have hkeys : [utf8 "signature", utf8 "valid", utf8 "types"].Nodup := by decide
    exact ⟨_, rfl, hkeys⟩
  | error e =>
    have hkeys : [utf8 "signature", utf8 "valid", utf8 "error"].Nodup := by decide
    exact ⟨_, rfl, hkeys⟩

theorem decoded_jsonRecord (o : Options) (text : String) :
    Decoded o text (jsonRecord o.tree text (verdict o text)) := by
  obtain ⟨hsignature, hvalid⟩ := get?_jsonRecord o.tree text (verdict o text)
  refine ⟨object_jsonRecord _ _ _, hsignature, ⟨_, hvalid, isOk_verdict_iff⟩, ?_⟩
  intro r hr
  have hverdict : verdict o text = .error (.rejected r) := by
    rw [verdict, Signature.within, hr]
    rfl
  refine ⟨errorJson (.rejected r), ?_, ?_⟩
  · rw [hverdict, jsonRecord, get?_record]
    rfl
  · rw [errorJson, get?_record, get?_record, get?_record]
    exact ⟨rfl, rfl, rfl⟩

/-! ## Reports -/

/-- How a report in JSON on texts is read back as some values, one for each text. -/
structure ReadBack (o : Options) (texts : List String) (values : List Json) : Prop where
  /-- With one record to a line, the report is split at its line feeds into records and an empty
  rest. -/
  lines : ∃ lines, (records { o with format := .jsonLines } texts).splitOn 0x0a = lines ++ [[]] ∧
    lines.length = texts.length ∧ (∀ line ∈ lines, line ≠ []) ∧
    lines.map parse = values.map some
  /-- With records over several lines, one is read behind the other. -/
  stream : parseAll (records { o with format := .json } texts) = some values
  decoded : List.Forall₂ (Decoded o) texts values

/-- The records of texts as values. -/
def jsonRecords (o : Options) (texts : List String) : List Json :=
  texts.map fun text => jsonRecord o.tree text (verdict o text)

theorem whole_jsonRecords : ∀ j ∈ jsonRecords o texts, j.Whole := by
  intro j hj
  obtain ⟨text, -, rfl⟩ := List.mem_map.mp hj
  exact whole_jsonRecord _ _ _

/-- A report of records that are each a value with a line feed behind it. -/
theorem records_eq_ofLines {o' : Options} {write : Json → Bytes}
    (hrecord : ∀ text, record o' text = write (jsonRecord o.tree text (verdict o text)) ++ [0x0a]) :
    records o' texts = ofLines ((jsonRecords o texts).map write) := by
  rw [records_eq_flatMap, ofLines, jsonRecords, List.flatMap_map, List.flatMap_map]
  exact List.flatMap_congr fun text _ => hrecord text

theorem readBack_jsonRecords (o : Options) (texts : List String) :
    ReadBack o texts (jsonRecords o texts) := by
  have hwritten : ∀ j ∈ jsonRecords o texts, Written j (compact j) := fun j hj =>
    written_compact (whole_jsonRecords j hj)
  have hlines : ∀ line ∈ (jsonRecords o texts).map compact, 0x0a ∉ line := by
    intro line hline
    obtain ⟨j, hj, rfl⟩ := List.mem_map.mp hline
    exact newline_not_mem_compact (whole_jsonRecords j hj)
  have hcompact : records { o with format := .jsonLines } texts =
      ofLines ((jsonRecords o texts).map compact) := records_eq_ofLines fun _ => rfl
  have hpretty : records { o with format := .json } texts =
      ofLines ((jsonRecords o texts).map (pretty 0)) := records_eq_ofLines fun _ => rfl
  refine ⟨⟨(jsonRecords o texts).map compact, ?_, ?_, ?_, ?_⟩, ?_, ?_⟩
  · rw [hcompact, splitOn_ofLines hlines]
  · rw [List.length_map, jsonRecords, List.length_map]
  · intro line hline
    obtain ⟨j, hj, rfl⟩ := List.mem_map.mp hline
    obtain ⟨c, r, hc, -⟩ := (hwritten j hj).head
    rw [hc]
    exact List.cons_ne_nil c r
  · rw [List.map_map]
    refine List.map_congr_left fun j hj => ?_
    have hparse := parse_written (hwritten j hj) blank_nil
    rwa [List.append_nil] at hparse
  · rw [hpretty]
    exact parseAll_written fun j hj => written_pretty (whole_jsonRecords j hj) 0
  · rw [jsonRecords, List.forall₂_map_right_iff]
    exact List.forall₂_same.mpr fun text _ => decoded_jsonRecord o text

end Report

open Command

/-- **A report is read back, in both formats**: on a text that is any at all, what is read of its record
is the text, the verdict, and what is wrong with it. The report is all that a run prints. -/
theorem reports_read_back (o : Options) (texts : List String) :
    (∃ values, Report.ReadBack o texts values) ∧
      ∀ reply flags w, "--" ∉ flags → Arguments.parse flags = .ok o → o.signatures = [] →
        o.input = none → o.target = none → texts ≠ [] →
        runIn reply (flags ++ "--" :: texts) w =
          (.finished (Report.allValid o texts),
            { w with output := w.output ++ Report.records o texts }) := by
  refine ⟨⟨_, Report.readBack_jsonRecords o texts⟩, ?_⟩
  intro reply flags w hplain hparse hsignatures hinput htarget hne
  have hall : Arguments.parse (flags ++ "--" :: texts) = .ok { o with signatures := texts } := by
    rw [Arguments.parse_operands hplain, hparse]
    show Except.ok { o with signatures := o.signatures ++ texts } = _
    rw [hsignatures]
    rfl
  have hgather : gather { o with signatures := texts } w = .ok texts := by
    unfold gather more
    rw [hinput]
    simp [hne]
  have hafter : afterGathering { o with signatures := texts } w = w := by
    rw [afterGathering, hinput]
    rfl
  rw [runIn_of_gather reply hall htarget hgather, hafter]
  rfl

/-- One text has quotes, a backslash and a line feed, and one is no signature for another reason. -/
theorem reports_read_back_quotes :
    let o : Options := ⟨[], none, .jsonLines, none, false, true, false, 0, 0⟩
    let texts := ["\"\\\n", "a\x7bvs\x7d"]
    let flags := ["-o", "jsonl", "--tree"]
    let w : World := ⟨⟨[], []⟩, [], []⟩
    "--" ∉ flags ∧ Arguments.parse flags = .ok o ∧ texts ≠ [] ∧
      (∃ values, Report.ReadBack o texts values) ∧
        runIn .unasked (flags ++ "--" :: texts) w =
          (.finished (Report.allValid o texts),
            { w with output := w.output ++ Report.records o texts }) := by
  intro o texts flags w
  have hplain : "--" ∉ flags := by decide
  have hparse : Arguments.parse flags = .ok o := by rfl
  obtain ⟨hread, hrun⟩ := reports_read_back o texts
  exact ⟨hplain, hparse, by simp [texts], hread,
    hrun .unasked flags w hplain hparse rfl rfl rfl (by simp [texts])⟩

end DBusTypes
