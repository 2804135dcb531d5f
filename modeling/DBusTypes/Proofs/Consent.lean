import DBusTypes.Proofs.Batch
import DBusTypes.Proofs.Effects
import DBusTypes.Proofs.Options

/-!
# Files and consent

A run is not to take away the content of a file without consent, but for its report there is one
target, and its path is followed three times: to see whether something is there, to make the
directories that are missing, and to write. Between the first and the last the disk may have grown.

1. If something was there and was removed with consent, the path leads to the same place afterwards.
2. If nothing was there, the path leads to a new place, unless it has a name `..`: behind a directory
   that is made on the way, that name leads back to what was there all along.

* `Command.Lost` — the two ways in which a file can lose its content
* `files_kept` — **in no other way does a file lose its content**
* `files_lost_behind_missing` — a run that overwrites a file without consent
-/

namespace DBusTypes

namespace Command

/-- Whether a run whose user replies so may take away the content of the file at a location. -/
inductive Lost (reply : Reply) (args : List String) (w : World) (l : Location) : Prop
  /-- The target's path denotes the file, and overwriting is consented to, in advance or when asked. -/
  | consented {o : Options} {path : Path} (hparse : Arguments.parse args = .ok o)
      (htarget : o.target = some path) (hfind : w.disk.find path = .ok l)
      (hconsent : "--no-confirm-overwrite" ∈ args ∨ reply = .yes)
  /-- The target's path denotes nothing before the run, as a directory is missing on the way, and the
  file after it, through a name `..` behind that directory. -/
  | detour {o : Options} {path : Path} (hparse : Arguments.parse args = .ok o)
      (htarget : o.target = some path) (hmissing : w.disk.pathExists path = false)
      (hup : ['.', '.'] ∈ path.names) (hfind : (runIn reply args w).2.disk.find path = .ok l)

variable {reply : Reply} {path : Path} {overwrite : Bool} {d d' : Disk} {l k : Location} {b : Bytes}

/-- Making way takes away no file but the one that the path denotes. -/
theorem Cleared.keeps (hc : Cleared reply path overwrite d d') (hl : d.node? l = some (.file b)) :
    d'.node? l = some (.file b) ∨ (overwrite = true ∨ reply = .yes) ∧ d.find path = .ok l := by
  cases hc with
  | missing _ hg => exact Or.inl (hg.keeps l _ hl)
  | @removed k _ ho hk _ hg =>
    by_cases hkl : l = k
    · subst hkl
      exact Or.inr ⟨ho, hk⟩
    · refine Or.inl (hg.keeps l _ ?_)
      rw [Disk.node?_remove hkl]
      exact hl

/-- **Where the report is written there was no file**, or the one that the path denoted, or one that
the path leads back to. -/
theorem Cleared.place_cases (ht : d.IsTree) (hc : Cleared reply path overwrite d d')
    (hl : d.node? l = some (.file b)) (hplace : d'.place path = .ok (some l))
    (hend : path.endsInSlash = false) :
    (overwrite = true ∨ reply = .yes) ∧ d.find path = .ok l ∨
      d.pathExists path = false ∧ ['.', '.'] ∈ path.names := by
  cases hc with
  | missing hmissing hg =>
    refine Or.inr ⟨hmissing, ?_⟩
    by_contra hup
    -- Without `..` the path would have led to the file before.
    have hbefore := Disk.place_back ht hg hup hplace (by rw [hl]; rfl)
    have hfind := Disk.find_of_place hbefore (by rw [hl]; rfl) (by simp [hend])
    rw [Disk.pathExists, hfind] at hmissing
    exact absurd hmissing (by simp)
  | @removed k c ho hk hfile hg =>
    have hsame := Cleared.place_of_find ht (.removed ho hk hfile hg) hk
    obtain rfl : k = l := Option.some.inj (Except.ok.inj (hsame.symm.trans hplace))
    exact Or.inl ⟨ho, hk⟩

end Command

open Command

/-- **A file keeps its content**, unless it is the one that the target's path denotes and overwriting
is consented to, or the path led nowhere and leads to it through `..` once directories are made. -/
theorem files_kept (reply : Reply) (args : List String) (w : World) (ht : w.disk.IsTree)
    (l : Location) (b : Bytes) (hl : w.disk.node? l = some (.file b)) :
    (runIn reply args w).2.disk.node? l = some (.file b) ∨ Lost reply args w l := by
  rcases runIn_disk_cases reply args w with hsame | ⟨o, path, d', hparse, htarget, hcleared, hafter⟩
  · rw [hsame]
    exact Or.inl hl
  have hconsented : (o.overwrite = true ∨ reply = .yes) ∧ w.disk.find path = .ok l →
      Lost reply args w l := by
    rintro ⟨hconsent, hfind⟩
    exact .consented hparse htarget hfind (hconsent.imp_left (Arguments.mem_of_overwrite hparse))
  rcases hcleared.keeps hl with hkept | hlost
  swap
  · exact Or.inr (hconsented hlost)
  rcases hafter with hafter | ⟨report, hafter⟩
  · rw [hafter]
    exact Or.inl hkept
  rcases d'.writeFile_cases path report with hno | ⟨k, hplace, hend, hk, hwrite⟩
  · rw [hafter, hno]
    exact Or.inl hkept
  rw [hwrite] at hafter
  by_cases hkl : l = k
  · subst hkl
    rcases hcleared.place_cases ht hl hplace hend with hlost | ⟨hmissing, hup⟩
    · exact Or.inr (hconsented hlost)
    · refine Or.inr (.detour hparse htarget hmissing hup ?_)
      rw [hafter]
      exact Disk.find_set hplace hend hk
  · rw [hafter, Disk.node?_set (Disk.ne_nil_of_place hplace), if_neg hkl]
    exact Or.inl hkept

/-- A file beside the target is kept. -/
theorem files_kept_beside :
    let w : World := ⟨⟨[(["kept.txt".toList], .file (utf8 "i"))], []⟩, [], []⟩
    w.disk.IsTree ∧ w.disk.node? ["kept.txt".toList] = some (.file (utf8 "i")) ∧
      ((runIn .unasked ["-f", "out.txt", "s"] w).2.disk.node? ["kept.txt".toList] =
          some (.file (utf8 "i")) ∨
        Lost .unasked ["-f", "out.txt", "s"] w ["kept.txt".toList]) := by
  intro w
  have ht : w.disk.IsTree := by decide
  have hl : w.disk.node? ["kept.txt".toList] = some (.file (utf8 "i")) := by decide
  exact ⟨ht, hl, files_kept _ _ w ht _ _ hl⟩

/-- Every record of a text in words starts with the text. -/
theorem Report.prefix_textRecord (tree : Bool) (text : String) (r : Except BuildError Signature) :
    utf8 text <+: Report.textRecord tree text r := by
  cases r with
  | ok s => exact List.prefix_append _ _
  | error e => exact List.prefix_append _ _

/-- **A file can be overwritten without consent.** Nothing is at `nope/../file` while there is no
directory `nope`; the run makes it, and then writes to `file`. -/
theorem files_lost_behind_missing :
    let args := ["-f", "nope/../file", "s"]
    let w : World := ⟨⟨[(["file".toList], .file (utf8 "keep me\n"))], []⟩, [], []⟩
    "--no-confirm-overwrite" ∉ args ∧ w.disk.IsTree ∧
      w.disk.node? ["file".toList] = some (.file (utf8 "keep me\n")) ∧
      (runIn .unasked args w).2.disk.node? ["file".toList] ≠ some (.file (utf8 "keep me\n")) := by
  intro args w
  refine ⟨by decide, by decide, by decide, ?_⟩
  let path : Path := "nope/../file".toList
  let o : Options := ⟨["s"], none, .text, some path, false, false, false, 0, 0⟩
  let d' : Disk := w.disk.set ["nope".toList] .directory
  have hparse : Arguments.parse args = .ok o := by rfl
  have hgather : gather o w = .ok ["s"] := by rfl
  have hancestors : Path.ancestors "nope/..".toList = ["nope/..".toList, "nope".toList, []] := by
    rw [Path.ancestors_of_some (q := "nope".toList) (by decide),
      Path.ancestors_of_some (q := []) (by decide), Path.ancestors_of_none (by decide)]
  have hmake : (Host.makeDirectories (m := StateM World) "nope/..".toList).run w =
      (true, { w with disk := d' }) := by
    rw [Host.makeDirectories, hancestors]
    exact Prod.ext (by decide) (by decide)
  have hparents : inWorld .unasked (makeParents path) w = (.ok (), { w with disk := d' }) := by
    have hparent : path.parent? = some "nope/..".toList := by decide
    rw [inWorld_makeParents, hparent]
    dsimp only
    rw [if_neg (by decide), hmake]
    rfl
  have hclear : inWorld .unasked (clear path o.overwrite) w = (.ok (), { w with disk := d' }) := by
    rw [inWorld_clear, if_neg (by decide), if_neg (by decide), hparents]
  have hwrite : ∀ report, d'.writeFile path report = (d'.set ["file".toList] (.file report), true) := by
    intro report
    rfl
  have hdeliver : ∀ report, inWorld .unasked (deliver o report) w =
      (.ok (), { w with disk := d'.set ["file".toList] (.file report) }) := by
    intro report
    have htarget : o.target = some path := rfl
    rw [inWorld_deliver_some htarget, hclear]
    dsimp only
    rw [hwrite]
    rfl
  have hreading : afterGathering o w = w := rfl
  rw [runIn_eq, hparse]
  dsimp only
  rw [inWorld_execute, hgather]
  dsimp only
  rw [hreading, hdeliver]
  dsimp only
  rw [Disk.node?_set (by decide), if_pos rfl]
  -- The report starts with the text that was checked.
  intro h
  have hreport : Report.records o ["s"] = utf8 "keep me\n" := Node.file.inj (Option.some.inj h)
  have hprefix : utf8 "s" <+: Report.records o ["s"] := by
    rw [Report.records_eq_flatMap]
    refine List.IsPrefix.trans ?_ (List.prefix_append _ _)
    exact Report.prefix_textRecord o.tree "s" (Report.verdict o "s")
  rw [hreport] at hprefix
  exact absurd hprefix (by decide)

end DBusTypes
