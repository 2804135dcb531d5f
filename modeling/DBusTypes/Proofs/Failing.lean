import DBusTypes.Proofs.Effects
import DBusTypes.Proofs.Parents

/-!
# Runs that fail

A run that fails leaves no trace but directories on the way to its target. What it does to the disk is
done in an order, so that nothing can fail behind a step that takes something away:

1. Reading, and looking at what is at the target, changes no file.
2. Where a file is removed, the directory that it was in is there. So none has to be made, and a file
   can be written in its place.
3. Where nothing is removed, directories are made, each where a path above the target leads.

* `World.Built` — a world with more directories, at paths that are known
* `Command.deliver_failed` — **a delivery that fails made directories at most**
* `failed_keeps_files` — **what is left of a run that fails**
-/

namespace DBusTypes

/-! ## Directories at known paths -/

/-- Whether a world is as it was but for directories that were made, each where one of some paths
leads. -/
structure World.Built (ps : List Path) (w w' : World) : Prop where
  extended : w.Extended w'
  made : ∀ l, w'.disk.node? l = some .directory →
    w.disk.node? l = some .directory ∨ ∃ p ∈ ps, w'.disk.find p = .ok l

namespace World

variable {ps : List Path} {w w' w'' : World}

theorem Built.refl (w : World) : w.Built ps w := ⟨.refl w, fun _ hl => Or.inl hl⟩

theorem Built.trans (h : w.Built ps w') (h' : w'.Built ps w'') : w.Built ps w'' := by
  refine ⟨h.extended.trans h'.extended, ?_⟩
  intro l hl
  rcases h'.made l hl with hl' | hnew
  · rcases h.made l hl' with hold | ⟨p, hp, hfind⟩
    · exact Or.inl hold
    · -- A path that leads to a directory leads there ever after.
      have hg := h'.extended.disk
      exact Or.inr ⟨p, hp, Disk.find_mono hg.here (fun j => hg.keeps j _) hfind hl'⟩
  · exact Or.inr hnew

end World

namespace Host

variable {ps : List Path} {p : Path}

theorem built_makeDirectory (hp : p ∈ ps) (w : World) :
    w.Built ps ((makeDirectory (m := StateM World) p).run w).2 := by
  refine ⟨builds_makeDirectory p w, ?_⟩
  intro l hl
  have hdisk : ((makeDirectory (m := StateM World) p).run w).2.disk = (w.disk.makeDirectory p).1 := rfl
  rw [hdisk] at hl ⊢
  rcases w.disk.makeDirectory_cases p with hsame | ⟨k, hplace, hnone, hmade⟩
  · rw [hsame] at hl
    exact Or.inl hl
  · rw [hmade] at hl ⊢
    by_cases hlk : l = k
    · subst hlk
      have hg := Disk.grown_set hnone
      have hplace' := Disk.place_mono hg.here (fun j => hg.keeps j _) hplace
      exact Or.inr ⟨p, hp, Disk.find_of_place hplace' (by rw [hl]; rfl) fun _ => hl⟩
    · rw [Disk.node?_set (Disk.ne_nil_of_place hplace), if_neg hlk] at hl
      exact Or.inl hl

theorem built_makeDirectories (p : Path) (w : World) :
    w.Built p.ancestors ((makeDirectories (m := StateM World) p).run w).2 :=
  makeChain_induction .refl (fun _ _ _ h h' => h.trans h') p.ancestors
    (fun _ hq => built_makeDirectory hq) w

end Host

namespace Command

/-! ## Making way -/

/-- The paths above one, from its parent on. -/
def above (path : Path) : List Path := path.parent?.elim [] Path.ancestors

variable {reply : Reply} {path : Path} {overwrite : Bool} {w : World} {l : Location} {b : Bytes}

theorem built_makeParents (reply : Reply) (path : Path) (w : World) :
    w.Built (above path) (inWorld reply (makeParents path) w).2 := by
  rw [inWorld_makeParents, above]
  cases path.parent? with
  | none => exact .refl w
  | some parent =>
    dsimp only
    split
    · exact .refl w
    · exact Host.built_makeDirectories parent w

/-- Where a path has a place, no directory has to be made. -/
theorem inWorld_makeParents_of_place (h : w.disk.place path = .ok (some l)) :
    inWorld reply (makeParents path) w = (.ok (), w) := by
  rw [inWorld_makeParents]
  cases hparent : path.parent? with
  | none => rfl
  | some parent =>
    dsimp only
    by_cases hne : parent = []
    · rw [hne]
      rfl
    · obtain ⟨k, hk, -⟩ := Disk.find_parent h hparent hne
      have hexists : w.disk.pathExists parent = true := by rw [Disk.pathExists, hk]
      rw [hexists, Bool.or_true, if_pos rfl]

/-- Where a file was removed, its path still has its place. -/
theorem place_remove (ht : w.disk.IsTree) (hl : w.disk.find path = .ok l)
    (hb : w.disk.node? l = some (.file b)) : (w.disk.remove l).place path = .ok (some l) := by
  have hcleared : Cleared .yes path true w.disk (w.disk.remove l) :=
    .removed (Or.inl rfl) hl hb (.refl _)
  exact hcleared.place_of_find ht hl

/-- With consent, a file that is there is all that is removed, and nothing fails. -/
theorem inWorld_clear_of_file (hconsent : consent overwrite reply = .ok ()) (ht : w.disk.IsTree)
    (hl : w.disk.find path = .ok l) (hb : w.disk.node? l = some (.file b)) :
    inWorld reply (clear path overwrite) w = (.ok (), { w with disk := w.disk.remove l }) := by
  have hdirectory : w.disk.isDirectory path = false := by
    rw [Disk.isDirectory, hl]
    simp [hb]
  have hexists : w.disk.pathExists path = true := by rw [Disk.pathExists, hl]
  have hremove : w.disk.removeFile path = (w.disk.remove l, true) := by
    rw [Disk.removeFile, hl]
    simp only [hb]
  rw [inWorld_clear, hdirectory, hexists, hremove, hconsent, if_neg Bool.false_ne_true, if_pos rfl]
  dsimp only
  rw [if_pos rfl]
  exact inWorld_makeParents_of_place (place_remove ht hl hb)

/-- **Making way removes a file and succeeds, or removes nothing.** -/
theorem clear_or_built (reply : Reply) (ht : w.disk.IsTree) (path : Path) (overwrite : Bool) :
    (∃ l b, w.disk.find path = .ok l ∧ w.disk.node? l = some (.file b) ∧
      inWorld reply (clear path overwrite) w = (.ok (), { w with disk := w.disk.remove l })) ∨
      w.Built (above path) (inWorld reply (clear path overwrite) w).2 := by
  cases hconsent : consent overwrite reply with
  | error f =>
    refine Or.inr ?_
    rw [inWorld_clear, hconsent]
    split
    · exact .refl w
    · split
      · exact .refl w
      · exact built_makeParents reply path w
  | ok u =>
    rcases w.disk.removeFile_cases path with hno | ⟨l, b, hl, hb, -⟩
    · refine Or.inr ?_
      rw [inWorld_clear, hconsent, hno]
      split
      · exact .refl w
      · split
        · exact .refl w
        · exact built_makeParents reply path w
    · exact Or.inl ⟨l, b, hl, hb, inWorld_clear_of_file hconsent ht hl hb⟩

/-! ## Delivering -/

variable {o : Options} {report : Bytes} {f : Failure}

/-- A file can be written where another was removed. -/
theorem writeFile_of_removed (ht : w.disk.IsTree) (hl : w.disk.find path = .ok l)
    (hb : w.disk.node? l = some (.file b)) (report : Bytes) :
    ((w.disk.remove l).writeFile path report).2 = true := by
  have hend : path.endsInSlash = false := by
    cases hslash : path.endsInSlash with
    | false => rfl
    | true =>
      have hdirectory := (Disk.find_ok_iff.1 hl).2.2 hslash
      rw [hb] at hdirectory
      exact absurd hdirectory (by simp)
  have hplace := place_remove ht hl hb
  have hgone : (w.disk.remove l).node? l = none := Disk.node?_remove_self (Disk.ne_nil_of_place hplace)
  rw [Disk.writeFile, hplace]
  simp [hend, hgone]

/-- **A delivery that fails has made directories at most**, on the way to the target. -/
theorem deliver_failed (ht : w.disk.IsTree) (h : (inWorld reply (deliver o report) w).1 = .error f) :
    ∃ path, o.target = some path ∧ w.Built (above path) (inWorld reply (deliver o report) w).2 := by
  cases htarget : o.target with
  | none =>
    rw [inWorld_deliver_none htarget] at h
    exact absurd h (by simp)
  | some path =>
    refine ⟨path, rfl, ?_⟩
    rw [inWorld_deliver_some htarget] at h ⊢
    rcases clear_or_built reply ht path o.overwrite with ⟨l, b, hl, hb, hclear⟩ | hbuilt
    · rw [hclear] at h
      dsimp only at h
      rw [writeFile_of_removed ht hl hb, if_pos rfl] at h
      exact absurd h (by simp)
    · rcases hclear : inWorld reply (clear path o.overwrite) w with ⟨g | u, w'⟩
      · rw [hclear] at hbuilt
        exact hbuilt
      · rw [hclear] at h hbuilt
        dsimp only at h hbuilt ⊢
        rcases w'.disk.writeFile_cases path report with hno | ⟨k, -, -, -, hwrite⟩
        · rw [hno]
          exact hbuilt
        · rw [hwrite] at h
          exact absurd h (by simp)

/-- A run fails before anything is delivered, or while it delivers its report. -/
theorem runIn_failed_cases {args : List String} (h : (runIn reply args w).1 = .failed f) :
    ∃ o, Arguments.parse args = .ok o ∧ ((runIn reply args w).2 = afterGathering o w ∨
      ∃ report, inWorld reply (deliver o report) (afterGathering o w) =
        (.error f, (runIn reply args w).2)) := by
  rw [runIn_eq] at h ⊢
  cases hparse : Arguments.parse args with
  | error e =>
    rw [hparse] at h
    exact absurd h (by simp)
  | ok o =>
    refine ⟨o, rfl, ?_⟩
    rw [hparse] at h
    dsimp only at h ⊢
    rw [inWorld_execute] at h ⊢
    cases hgather : gather o w with
    | error g => exact Or.inl rfl
    | ok texts =>
      refine Or.inr ⟨Report.records o texts, ?_⟩
      rw [hgather] at h
      dsimp only at h ⊢
      rcases hdeliver : inWorld reply (deliver o (Report.records o texts)) (afterGathering o w) with
        ⟨g | u, w'⟩
      · rw [hdeliver] at h
        obtain rfl := Outcome.failed.inj h
        rfl
      · rw [hdeliver] at h
        exact absurd h (by simp)

end Command

open Command

/-- **A run that fails leaves output and files as they were.** It prints nothing, no file is changed,
removed or added, and where there is a directory now and was none before, one of the paths above the
target leads to it. -/
theorem failed_keeps_files (reply : Reply) (args : List String) (w : World) (f : Failure)
    (ht : w.disk.IsTree) (h : (runIn reply args w).1 = .failed f) :
    (runIn reply args w).2.output = w.output ∧
      (∀ l b, (runIn reply args w).2.disk.node? l = some (.file b) ↔
        w.disk.node? l = some (.file b)) ∧
      (∀ l, w.disk.node? l = some .directory →
        (runIn reply args w).2.disk.node? l = some .directory) ∧
      ∀ l, (runIn reply args w).2.disk.node? l = some .directory →
        w.disk.node? l = some .directory ∨
        ∃ o path p, Arguments.parse args = .ok o ∧ o.target = some path ∧ p ∈ above path ∧
          (runIn reply args w).2.disk.find p = .ok l := by
  obtain ⟨o, hparse, hreading | ⟨report, hdeliver⟩⟩ := runIn_failed_cases h
  · rw [hreading, disk_afterGathering, output_afterGathering]
    exact ⟨rfl, fun _ _ => Iff.rfl, fun _ hl => hl, fun _ hl => Or.inl hl⟩
  · have ht' : (afterGathering o w).disk.IsTree := by
      rw [disk_afterGathering]
      exact ht
    obtain ⟨path, htarget, hbuilt⟩ := deliver_failed ht' (congrArg Prod.fst hdeliver)
    rw [hdeliver] at hbuilt
    obtain ⟨⟨hg, -, houtput⟩, hmade⟩ := hbuilt
    rw [disk_afterGathering] at hg hmade
    rw [output_afterGathering] at houtput
    refine ⟨houtput, fun l b => ⟨hg.files l b, hg.keeps l _⟩, fun l => hg.keeps l _, ?_⟩
    intro l hl
    rcases hmade l hl with hold | ⟨p, hp, hfind⟩
    · exact Or.inl hold
    · exact Or.inr ⟨o, path, p, hparse, htarget, hp, hfind⟩

/-- No file can be made at a path that ends in a slash, but the directory above it is made before that
is tried. -/
theorem failed_keeps_files_slash :
    let args := ["-f", "new/out/", "i"]
    let w : World := ⟨⟨[(["kept.txt".toList], .file (utf8 "s"))], []⟩, [], []⟩
    w.disk.IsTree ∧ (runIn .unasked args w).1 = .failed (.targetNotMade "new/out/".toList) ∧
      (runIn .unasked args w).2.output = w.output ∧
      (∀ l b, (runIn .unasked args w).2.disk.node? l = some (.file b) ↔
        w.disk.node? l = some (.file b)) ∧
      (runIn .unasked args w).2.disk.node? ["new".toList] = some .directory := by
  intro args w
  have ht : w.disk.IsTree := by decide
  have h : (runIn .unasked args w).1 = .failed (.targetNotMade "new/out/".toList) := by decide +kernel
  have hmade : (runIn .unasked args w).2.disk.node? ["new".toList] = some .directory := by
    decide +kernel
  obtain ⟨houtput, hfiles, -, -⟩ := failed_keeps_files .unasked args w _ ht h
  exact ⟨ht, h, houtput, hfiles, hmade⟩

end DBusTypes
