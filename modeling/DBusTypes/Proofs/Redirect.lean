import DBusTypes.Proofs.Consent
import DBusTypes.Proofs.Records
import DBusTypes.Proofs.Untargeted

/-!
# With and without a target

A target takes the report in place of standard output, and changes nothing else of a run. The run to
compare with is that of the same arguments without the target. Both read the same, as all is read
before the target is touched, even where that is what is read from.

* `Command.file_iff_beside_target` — a run changes no file but its target
* `Command.Redirected`, `target_redirects` — **what a target changes of a run**
-/

namespace DBusTypes

namespace Command

variable {reply : Reply} {args texts : List String} {o : Options} {w : World} {path : Path}

/-- A run without a target prints its report, and does nothing else but read. -/
theorem runIn_of_gather (reply : Reply) (hparse : Arguments.parse args = .ok o)
    (hnone : o.target = none) (hgather : gather o w = .ok texts) :
    runIn reply args w = (.finished (Report.allValid o texts),
      { afterGathering o w with output := w.output ++ Report.records o texts }) := by
  rw [runIn_eq, hparse]
  dsimp only
  rw [inWorld_execute, hgather]
  dsimp only
  rw [inWorld_deliver_none hnone, output_afterGathering]

/-- Making way changes no file but the one that the path denotes. -/
theorem Cleared.file_iff {overwrite : Bool} {d d' : Disk} {l : Location}
    (hc : Cleared reply path overwrite d d') (hl : d.find path ≠ .ok l) (b : Bytes) :
    d'.node? l = some (.file b) ↔ d.node? l = some (.file b) := by
  cases hc with
  | missing _ hg => exact ⟨hg.files l b, hg.keeps l _⟩
  | @removed k _ _ hk _ hg =>
    have hlk : l ≠ k := by
      rintro rfl
      exact hl hk
    rw [← Disk.node?_remove (d := d) hlk]
    exact ⟨hg.files l b, hg.keeps l _⟩

/-- **A run changes no file but the one that the target's path denotes after it.** -/
theorem file_iff_beside_target (hparse : Arguments.parse args = .ok o) (htarget : o.target = some path)
    (ht : w.disk.IsTree) {k l : Location} (hk : (runIn reply args w).2.disk.find path = .ok k)
    (hl : l ≠ k) (b : Bytes) :
    (runIn reply args w).2.disk.node? l = some (.file b) ↔ w.disk.node? l = some (.file b) := by
  rcases runIn_disk_cases reply args w with
    hsame | ⟨o', path', d', hparse', htarget', hcleared, hafter⟩
  · rw [hsame]
  obtain rfl := Except.ok.inj (hparse.symm.trans hparse')
  obtain rfl := Option.some.inj (htarget.symm.trans htarget')
  have hkept : (runIn reply args w).2.disk = d' →
      ((runIn reply args w).2.disk.node? l = some (.file b) ↔ w.disk.node? l = some (.file b)) := by
    intro hsame
    rw [hsame] at hk ⊢
    refine hcleared.file_iff ?_ b
    intro hfind
    exact hl (Disk.find_eq_of_place (hcleared.place_of_find ht hfind) hk).symm
  rcases hafter with hsame | ⟨report, hwritten⟩
  · exact hkept hsame
  rcases d'.writeFile_cases path report with hno | ⟨j, hplace, hend, hj, hwrite⟩
  · rw [hno] at hwritten
    exact hkept hwritten
  rw [hwrite] at hwritten
  rw [hwritten] at hk ⊢
  obtain rfl : j = k := Except.ok.inj ((Disk.find_set hplace hend hj).symm.trans hk)
  rw [Disk.node?_set (Disk.ne_nil_of_place hplace), if_neg hl]
  refine hcleared.file_iff ?_ b
  intro hfind
  have hsame := hcleared.place_of_find ht hfind
  exact hl (Option.some.inj (Except.ok.inj (hsame.symm.trans hplace)))

/-- What a run does with a target, and what it does without. -/
structure Redirected (reply : Reply) (args : List String) (w : World) (o : Options) (path : Path)
    (more : List String) (report : Bytes) : Prop where
  /-- Without the target the same is asked for. -/
  options : Arguments.parse (Arguments.untargeted false args) = .ok { o with target := none }
  /-- What is read is what was there before the run, also where that is the target. -/
  read : Read o w more
  records : report = (Arguments.positional false args ++ more).flatMap (Report.record o)
  outcome : (runIn reply (Arguments.untargeted false args) w).1 = (runIn reply args w).1
  exit : (runIn reply (Arguments.untargeted false args) w).1.exitCode =
    (runIn reply args w).1.exitCode
  printed : (runIn reply (Arguments.untargeted false args) w).2.output = w.output ++ report
  silent : (runIn reply args w).2.output = w.output
  written : (runIn reply args w).2.disk.read? path = some (.file report)
  untouched : (runIn reply (Arguments.untargeted false args) w).2.disk = w.disk
  /-- Beside the target no file is changed, added or removed. -/
  beside : w.disk.IsTree → ∀ k l, (runIn reply args w).2.disk.find path = .ok k → l ≠ k → ∀ b,
    (runIn reply args w).2.disk.node? l = some (.file b) ↔ w.disk.node? l = some (.file b)

end Command

open Command

/-- **A target takes the report in place of standard output, and changes nothing else.** The run with
it and the run without end alike; what one writes to the target the other prints. -/
theorem target_redirects (reply : Reply) (args : List String) (w : World) (o : Options)
    (path : Path) (allValid : Bool) (hparse : Arguments.parse args = .ok o)
    (htarget : o.target = some path) (h : (runIn reply args w).1 = .finished allValid) :
    ∃ more report, Redirected reply args w o path more report := by
  obtain ⟨o', texts, hparse', hgather, hvalid, hdelivered⟩ := of_runIn_finished h
  obtain rfl := Except.ok.inj (hparse.symm.trans hparse')
  obtain ⟨more, hmore, htexts⟩ := eq_append_of_gather hgather
  rw [Arguments.signatures_of_parse hparse] at htexts
  unfold Delivered at hdelivered
  rw [htarget] at hdelivered
  obtain ⟨hwritten, hsilent⟩ := hdelivered
  -- Neither what is gathered nor what is reported depends on the target.
  have hwithout := Arguments.parse_untargeted hparse
  have hgather' : gather { o with target := none } w = .ok texts := hgather
  have hrun := runIn_of_gather reply hwithout rfl hgather'
  have houtcome : (runIn reply (Arguments.untargeted false args) w).1 = (runIn reply args w).1 := by
    rw [hrun, h, hvalid]
    rfl
  refine ⟨more, Report.records o texts, hwithout, hmore, ?_, houtcome, ?_, ?_, hsilent, hwritten, ?_,
    ?_⟩
  · rw [htexts, Report.records_eq_flatMap]
  · rw [houtcome]
  · rw [hrun]
    rfl
  · rw [hrun]
    exact disk_afterGathering _ w
  · intro ht k l hk hl b
    exact file_iff_beside_target hparse htarget ht hk hl b

/-- Signatures are read from a file, and the report takes its place. -/
theorem target_redirects_onto_input :
    let args := ["-i", "list", "-f", "list", "--no-confirm-overwrite"]
    let w : World := ⟨⟨[(["list".toList], .file (utf8 "i\n(\n"))], []⟩, [], []⟩
    let o : Options := ⟨[], some "list".toList, .text, some "list".toList, true, false, false, 0, 0⟩
    Arguments.parse args = .ok o ∧ o.target = some "list".toList ∧
      (runIn .unasked args w).1 = .finished false ∧
      ∃ more report, Redirected .unasked args w o "list".toList more report := by
  intro args w o
  have hparse : Arguments.parse args = .ok o := by rfl
  have h : (runIn .unasked args w).1 = .finished false := by decide +kernel
  exact ⟨hparse, rfl, h, target_redirects .unasked args w o _ false hparse rfl h⟩

end DBusTypes
