import Mathlib.Data.List.Basic
import DBusTypes.Proofs.Batch
import DBusTypes.Proofs.Building
import DBusTypes.Proofs.Effects
import DBusTypes.Proofs.Lines
import DBusTypes.Proofs.Numerals
import DBusTypes.Proofs.Options

/-!
# One record for each text

A run that does not fail writes the records of all texts, one after the other: first those among the
arguments, then those that are read. A record says of its text alone whether it is accepted, and the
exit code says whether all are.

* `Report.Says` — what a record says of a text, in each format
* `Report.says_record`, `Report.not_says_both` — **a record says whether its text is accepted**, and not
  the opposite
* `Command.Read` — the texts that are read
* `Command.Delivered` — where a report is
* `Command.Reported`, `run_reports` — **what is written by a run, and how it exits**
-/

namespace DBusTypes

/-! ## Records -/

namespace Report

/-- What a record has in front of its text. -/
def opening : Format → Bytes
  | .text => []
  | .json => utf8 "\x7b\n  \"signature\": "
  | .jsonLines => utf8 "\x7b\"signature\":"

/-- A text as a record has it. -/
def shown (text : String) : Format → Bytes
  | .text => utf8 text
  | .json | .jsonLines => Json.quoted (utf8 text)

/-- What a record has behind its text if it says that the text is a signature, and if it says that it
is none. -/
inductive Mark : Format → Bool → Bytes → Prop
  | valid (count : Nat) :
      Mark .text true (utf8 (": " ++ toString count ++ " single complete type(s)\n"))
  | invalid : Mark .text false (utf8 ": error: ")
  | json (valid : Bool) : Mark .json valid (utf8 (",\n  \"valid\": " ++ toString valid ++ ",\n"))
  | jsonLines (valid : Bool) : Mark .jsonLines valid (utf8 (",\"valid\":" ++ toString valid ++ ","))

/-- Whether a record says of a text that it is, or is not, a signature. -/
def Says (text : String) (format : Format) (valid : Bool) (r : Bytes) : Prop :=
  ∃ mark rest, Mark format valid mark ∧ r = opening format ++ (shown text format ++ (mark ++ rest))

variable {o : Options} {text : String} {format : Format} {r : Bytes}

/-- What a record says it says whatever follows. -/
theorem Says.append {valid : Bool} (h : Says text format valid r) (more : Bytes) :
    Says text format valid (r ++ more) := by
  obtain ⟨mark, rest, hmark, rfl⟩ := h
  refine ⟨mark, rest ++ more, hmark, ?_⟩
  simp only [List.append_assoc]

theorem says_textRecord (tree : Bool) (text : String) (r : Except BuildError Signature) :
    Says text .text r.isOk (textRecord tree text r) := by
  cases r with
  | ok s => exact ⟨_, _, .valid s.count, rfl⟩
  | error e =>
    refine ⟨_, utf8 (e.message ++ "\n"), .invalid, ?_⟩
    rw [textRecord, String.append_assoc, utf8_append]
    rfl

theorem jsonRecord_eq (tree : Bool) (text : String) (r : Except BuildError Signature) :
    ∃ last, jsonRecord tree text r =
      .record [("signature", .text text), ("valid", .bool r.isOk), last] := by
  cases r with
  | ok s => exact ⟨("types", typesJson tree s), rfl⟩
  | error e => exact ⟨("error", errorJson e), rfl⟩

theorem says_pretty (text : String) (valid : Bool) (last : String × Json) :
    Says text .json valid
      (Json.pretty 0 (.record [("signature", .text text), ("valid", .bool valid), last])) := by
  cases valid with
  | true => exact ⟨_, _, .json true, rfl⟩
  | false => exact ⟨_, _, .json false, rfl⟩

theorem says_compact (text : String) (valid : Bool) (last : String × Json) :
    Says text .jsonLines valid
      (Json.compact (.record [("signature", .text text), ("valid", .bool valid), last])) := by
  cases valid with
  | true => exact ⟨_, _, .jsonLines true, rfl⟩
  | false => exact ⟨_, _, .jsonLines false, rfl⟩

/-- What is written of a text says whether the verdict on it is good. -/
theorem says_written (o : Options) (text : String) (r : Except BuildError Signature) :
    Says text o.format r.isOk (written o text r) := by
  unfold written
  cases o.format with
  | text => exact says_textRecord o.tree text r
  | json =>
    obtain ⟨last, hlast⟩ := jsonRecord_eq o.tree text r
    rw [hlast]
    exact (says_pretty text _ last).append [0x0a]
  | jsonLines =>
    obtain ⟨last, hlast⟩ := jsonRecord_eq o.tree text r
    rw [hlast]
    exact (says_compact text _ last).append [0x0a]

/-- **A record says whether its text is accepted.** -/
theorem says_record (o : Options) (text : String) :
    Says text o.format (verdict o text).isOk (record o text) :=
  says_written o text (verdict o text)

/-- No record says both. -/
theorem not_says_both (h : Says text format true r) : ¬ Says text format false r := by
  rintro ⟨mark', rest', hmark', hr'⟩
  obtain ⟨mark, rest, hmark, hr⟩ := h
  have hmarks : mark ++ rest = mark' ++ rest' :=
    List.append_cancel_left (List.append_cancel_left (hr.symm.trans hr'))
  cases hmark with
  | valid count =>
    cases hmark' with
    | invalid =>
      -- Behind the colon there is a digit in one, and a letter in the other.
      obtain ⟨b, bs, hb⟩ := List.exists_cons_of_ne_nil (Json.toString_ne_nil count)
      have hdigit : Json.isDigit b = true := Json.isDigit_of_mem_toString (n := count) (by
        rw [hb]
        exact List.mem_cons_self)
      rw [utf8_append, utf8_append, hb] at hmarks
      obtain rfl : b = 0x65 := Option.some.inj (congrArg (fun bytes => bytes[2]?) hmarks)
      exact absurd hdigit (by decide)
  | json =>
    cases hmark' with
    | json =>
      have hbyte : (0x74 : UInt8) = 0x66 :=
        Option.some.inj (congrArg (fun bytes => bytes[13]?) hmarks)
      exact absurd hbyte (by decide)
  | jsonLines =>
    cases hmark' with
    | jsonLines =>
      have hbyte : (0x74 : UInt8) = 0x66 :=
        Option.some.inj (congrArg (fun bytes => bytes[9]?) hmarks)
      exact absurd hbyte (by decide)

/-- What says one of the two says that only. -/
theorem Says.iff {valid valid' : Bool} (h : Says text format valid r) :
    Says text format valid' r ↔ valid = valid' := by
  constructor
  · intro h'
    cases valid with
    | true =>
      cases valid' with
      | true => rfl
      | false => exact absurd h' (not_says_both h)
    | false =>
      cases valid' with
      | true => exact absurd h (not_says_both h')
      | false => rfl
  · rintro rfl
    exact h

/-- A record says of its text what the verdict is, and nothing else. -/
theorem says_record_iff {valid : Bool} :
    Says text o.format valid (record o text) ↔ (verdict o text).isOk = valid :=
  (says_record o text).iff

/-- The verdict on a text is that of the checker, under the limits that the options set. -/
theorem isOk_verdict_iff : (verdict o text).isOk = true ↔ check (limits o) (utf8 text) = .ok () := by
  unfold verdict
  constructor
  · intro h
    cases hmade : Signature.within (limits o) (utf8 text) with
    | ok s => exact (Signature.within_ok_iff.mp hmade).1
    | error e =>
      rw [hmade] at h
      exact absurd h (by simp [Except.isOk, Except.toBool])
  · intro h
    rw [Signature.within_ok_iff.mpr ⟨h, rfl⟩]
    rfl

theorem allValid_iff {texts : List String} :
    allValid o texts = true ↔ ∀ text ∈ texts, check (limits o) (utf8 text) = .ok () := by
  rw [allValid_eq_all, List.all_eq_true]
  simp only [isOk_verdict_iff]

/-- A record depends on nothing but its text, the format, and what is asked for of each text. -/
theorem record_congr {o' : Options} (hformat : o'.format = o.format) (htree : o'.tree = o.tree)
    (hlength : o'.anyLength = o.anyLength) (text : String) : record o' text = record o text := by
  unfold record written verdict limits
  rw [hformat, htree, hlength]

end Report

/-! ## Runs -/

namespace Command

variable {reply : Reply} {o : Options} {w : World} {texts : List String} {report : Bytes}

/-- What is read where the options ask for it: of all lines the texts, if they are UTF-8. -/
def Read (o : Options) (w : World) (texts : List String) : Prop :=
  match o.input with
  | none => texts = []
  | some path => ∃ b lines, source w path = .content b ∧ Lines b (lines.map utf8) ∧
      texts = textsOf lines

/-- Whether a report has come to where the options ask for it. -/
def Delivered (o : Options) (w w' : World) (report : Bytes) : Prop :=
  match o.target with
  | none => w'.output = w.output ++ report ∧ w'.disk = w.disk
  | some path => w'.disk.read? path = some (.file report) ∧ w'.output = w.output

theorem interpret_ok_iff {path : Path} {reading : Reading} :
    interpret path reading = .ok texts ↔ ∃ b, reading = .content b ∧ readTexts b = .ok texts := by
  cases reading with
  | content b => simp [interpret, mapError_eq_ok]
  | unreadable | notOpened => simp [interpret]

theorem more_ok_iff : more o w = .ok texts ↔ Read o w texts := by
  unfold more Read
  cases o.input with
  | none => exact ⟨fun h => (Except.ok.inj h).symm, fun h => congrArg Except.ok h.symm⟩
  | some path =>
    dsimp only
    rw [interpret_ok_iff]
    constructor
    · rintro ⟨b, hb, htexts⟩
      obtain ⟨lines, hlines, htexts⟩ := readTexts_ok_iff.mp htexts
      exact ⟨b, lines, hb, hlines, htexts⟩
    · rintro ⟨b, lines, hb, hlines, htexts⟩
      exact ⟨b, hb, readTexts_ok_iff.mpr ⟨lines, hlines, htexts⟩⟩

/-- The texts that a run checks are those among its arguments and then those that are read. -/
theorem eq_append_of_gather (h : gather o w = .ok texts) :
    ∃ read, Read o w read ∧ texts = o.signatures ++ read := by
  unfold gather at h
  cases hmore : more o w with
  | error f =>
    rw [hmore] at h
    exact absurd h (by simp)
  | ok read =>
    rw [hmore] at h
    dsimp only at h
    split at h
    · exact absurd h (by simp)
    · exact ⟨read, more_ok_iff.mp hmore, (Except.ok.inj h).symm⟩

/-- **A report that is delivered is where it was asked for**, with nothing beside it. -/
theorem delivered_of_deliver (h : (inWorld reply (deliver o report) w).1 = .ok ()) :
    Delivered o w (inWorld reply (deliver o report) w).2 report := by
  unfold Delivered
  cases htarget : o.target with
  | none =>
    rw [inWorld_deliver_none htarget]
    exact ⟨rfl, rfl⟩
  | some path =>
    have houtput : (inWorld reply (clear path o.overwrite) w).2.output = w.output := by
      rcases clear_cases reply path o.overwrite w with ⟨f, hclear⟩ | ⟨-, -, houtput⟩
      · rw [hclear]
      · exact houtput
    rw [inWorld_deliver_some htarget] at h ⊢
    rcases hclear : inWorld reply (clear path o.overwrite) w with ⟨f | u, w'⟩
    · rw [hclear] at h
      exact absurd h (by simp)
    · rw [hclear] at h houtput
      dsimp only at h houtput ⊢
      rcases w'.disk.writeFile_cases path report with hno | ⟨l, hplace, hend, hl, hwrite⟩
      · rw [hno] at h
        exact absurd h (by simp)
      · have hfind : (w'.disk.set l (.file report)).find path = .ok l :=
          Disk.find_set hplace hend hl
        have hfile : (w'.disk.set l (.file report)).node? l = some (.file report) := by
          rw [Disk.node?_set (Disk.ne_nil_of_place hplace), if_pos rfl]
        rw [hwrite]
        refine ⟨?_, houtput⟩
        show (w'.disk.set l (.file report)).read? path = some (.file report)
        rw [Disk.read?, hfind]
        exact hfile

theorem exitCode_finished_iff {allValid : Bool} :
    (Outcome.finished allValid).exitCode = 0 ↔ allValid = true := by
  cases allValid <;> decide

/-- A run that does not fail delivers the records of the texts that it gathers. -/
theorem of_runIn_finished {args : List String} {allValid : Bool}
    (h : (runIn reply args w).1 = .finished allValid) :
    ∃ o texts, Arguments.parse args = .ok o ∧ gather o w = .ok texts ∧
      allValid = Report.allValid o texts ∧
      Delivered o w (runIn reply args w).2 (Report.records o texts) := by
  rcases runIn_cases reply args w with
    ⟨hno, -⟩ | ⟨o, texts, result, w', hparse, hgather, hdeliver, hrun⟩
  · exact absurd h (hno allValid)
  · rw [hrun] at h ⊢
    cases result with
    | error f => exact absurd h (by simp)
    | ok _ =>
      have hdelivered : Delivered o (afterGathering o w)
          (inWorld reply (deliver o (Report.records o texts)) (afterGathering o w)).2
          (Report.records o texts) := delivered_of_deliver (congrArg Prod.fst hdeliver)
      rw [hdeliver] at hdelivered
      refine ⟨o, texts, hparse, hgather, (Outcome.finished.inj h).symm, ?_⟩
      -- Reading leaves the disk and the output as they were.
      unfold Delivered at hdelivered ⊢
      rw [output_afterGathering, disk_afterGathering] at hdelivered
      exact hdelivered

/-- What a run has done that does not fail, under the options that its arguments set. -/
structure Reported (args : List String) (w w' : World) (exitCode : UInt32) (o : Options)
    (more : List String) : Prop where
  options : Arguments.parse args = .ok o
  read : Read o w more
  /-- There is one record for each text, first for the positional arguments, and then for what was
  read. -/
  delivered : Delivered o w w'
    ((Arguments.positional false args ++ more).flatMap (Report.record o))
  /-- A record says of its text whether it is accepted, and not the opposite. -/
  verdict : ∀ text valid, Report.Says text o.format valid (Report.record o text) ↔
    (check (Report.limits o) (utf8 text) = .ok () ↔ valid = true)
  /-- A record depends on its text and on three of the options only. -/
  own : ∀ o' : Options, o'.format = o.format → o'.tree = o.tree → o'.anyLength = o.anyLength →
    ∀ text, Report.record o' text = Report.record o text
  /-- Texts are checked against the limits of the protocol, but for the length if that is asked for. -/
  limits : Report.limits o = { Limits.standard with length := if o.anyLength then none else some 255 }
  exit : exitCode = 0 ↔
    ∀ text ∈ Arguments.positional false args ++ more, check (Report.limits o) (utf8 text) = .ok ()

end Command

open Command

/-- **A run that does not fail writes one record for each text, in order**, which says whether the text
is accepted, and exits with 0 just if all are. -/
theorem run_reports (reply : Reply) (args : List String) (w : World) (allValid : Bool)
    (h : (runIn reply args w).1 = .finished allValid) :
    ∃ o more, Reported args w (runIn reply args w).2 (runIn reply args w).1.exitCode o more := by
  obtain ⟨o, texts, hparse, hgather, hvalid, hdelivered⟩ := of_runIn_finished h
  obtain ⟨more, hmore, htexts⟩ := eq_append_of_gather hgather
  rw [Arguments.signatures_of_parse hparse] at htexts
  rw [htexts] at hvalid hdelivered
  rw [Report.records_eq_flatMap] at hdelivered
  refine ⟨o, more, hparse, hmore, hdelivered, ?_, ?_, ?_, ?_⟩
  · intro text valid
    rw [Report.says_record_iff, ← Report.isOk_verdict_iff]
    cases (Report.verdict o text).isOk <;> cases valid <;> decide
  · intro o' hformat htree hlength
    exact Report.record_congr hformat htree hlength
  · unfold Report.limits
    cases o.anyLength <;> rfl
  · rw [h, hvalid, exitCode_finished_iff, Report.allValid_iff]

/-- Two positional arguments and two lines, one of which is no signature. -/
theorem run_reports_mixed :
    let args := ["i", "-i", "-", "i"]
    let w : World := ⟨⟨[], []⟩, utf8 " s\r\n\n(\n", []⟩
    (runIn .unasked args w).1 = .finished false ∧
      ∃ o more,
        Reported args w (runIn .unasked args w).2 (runIn .unasked args w).1.exitCode o more := by
  intro args w
  have h : (runIn .unasked args w).1 = .finished false := by decide +kernel
  exact ⟨h, run_reports .unasked args w false h⟩

end DBusTypes
