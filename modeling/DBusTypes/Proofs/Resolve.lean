import Mathlib.Data.List.Induction
import DBusTypes.Files.Disk

/-!
# Paths in a disk that changes

A path is followed anew each time it is used, in a disk that may have changed since. What a path leads
to stays the same as long as the directories on the way are there. The other way round this fails: a
path that led nowhere leads somewhere once directories are made, and with a name `..` in it that may
be a place that was there all along. Without such a name it is a new place.

* `Disk.IsTree` — everything is in a directory
* `Disk.Grown` — a disk with more directories, and all else as it was
* `Disk.walk_mono`, `Disk.place_mono` — directories that are kept are still led through
* `Disk.walk_back`, `Disk.place_back` — **without `..`, what a path leads to in a grown disk it led to
  before**, if that was there
* `Disk.find_set` — a file is found where it was written
-/

namespace DBusTypes

/-- Whether a path can be looked up at all. -/
def Path.Usable (p : Path) : Prop :=
  p.contains '\x00' = false ∧ p.isEmpty = false ∧ byteLength p ≤ Disk.pathLimit

namespace Path

theorem namesFrom_ne_nil {piece : Name} (h : piece ≠ []) (p : Path) : namesFrom piece p ≠ [] := by
  induction p generalizing piece with
  | nil =>
    rw [namesFrom, if_neg (by simpa using h)]
    exact List.cons_ne_nil _ _
  | cons c p ih =>
    rw [namesFrom]
    split
    · rw [if_neg (by simpa using h)]
      exact List.cons_ne_nil _ _
    · exact ih (List.cons_ne_nil _ _)

/-- A path without names consists of slashes. -/
theorem isAbsolute_of_names {p : Path} (h : p.names = []) (hne : p.isEmpty = false) :
    p.isAbsolute = true := by
  cases p with
  | nil => exact absurd hne (by simp)
  | cons c p =>
    rw [names, namesFrom] at h
    by_cases hc : c = '/'
    · rw [hc]
      rfl
    · rw [if_neg hc] at h
      exact absurd h (namesFrom_ne_nil (List.cons_ne_nil _ _) p)

theorem ancestors_of_none {p : Path} (h : p.parent? = none) : p.ancestors = [p] := by
  rw [ancestors]
  split
  · next q hq => simp [h] at hq
  · rfl

theorem ancestors_of_some {p q : Path} (h : p.parent? = some q) : p.ancestors = p :: q.ancestors := by
  rw [ancestors]
  split
  · next q' hq =>
    obtain rfl := Option.some.inj (h.symm.trans hq)
    rfl
  · next hq => simp [h] at hq

end Path

namespace Disk

variable {d d' d'' : Disk} {l k : Location} {name : Name} {names : List Name} {p : Path}

/-! ## Trees -/

/-- Whether everything that is there is in a directory. -/
def IsTree (d : Disk) : Prop := ∀ x ∈ d.nodes, d.node? x.1.dropLast = some .directory

instance (d : Disk) : Decidable d.IsTree :=
  inferInstanceAs (Decidable (∀ x ∈ d.nodes, d.node? x.1.dropLast = some .directory))

theorem node?_nil (d : Disk) : d.node? [] = some .directory := rfl

theorem IsTree.parent (h : d.IsTree) (hl : (d.node? (l ++ [name])).isSome) :
    d.node? l = some .directory := by
  obtain ⟨n, hn⟩ := Option.isSome_iff_exists.mp hl
  rw [node?, if_neg (by simp), List.lookup_eq_some_iff] at hn
  obtain ⟨u, v, hnodes, -⟩ := hn
  have hmem : (l ++ [name], n) ∈ d.nodes := by
    rw [hnodes]
    exact List.mem_append_right _ List.mem_cons_self
  have hparent := h _ hmem
  rwa [List.dropLast_concat] at hparent

/-- What a location is in is there with it. -/
theorem IsTree.isSome_of_prefix (h : d.IsTree) (hk : k <+: l) (hl : (d.node? l).isSome) :
    (d.node? k).isSome := by
  obtain ⟨r, rfl⟩ := hk
  induction r using List.reverseRecOn with
  | nil => rwa [List.append_nil] at hl
  | append_singleton r name ih =>
    rw [← List.append_assoc] at hl
    refine ih ?_
    rw [h.parent hl]
    rfl

/-- What a directory is in is a directory. -/
theorem IsTree.dropLast (h : d.IsTree) (hl : d.node? l = some .directory) :
    d.node? l.dropLast = some .directory := by
  rcases List.eq_nil_or_concat l with rfl | ⟨k, name, rfl⟩
  · exact hl
  · rw [List.concat_eq_append, List.dropLast_concat]
    rw [List.concat_eq_append] at hl
    exact h.parent (by rw [hl]; rfl)

/-! ## More directories -/

/-- Whether a disk has all that another has, and beyond it directories only. -/
structure Grown (d d' : Disk) : Prop where
  here : d'.here = d.here
  keeps : ∀ l n, d.node? l = some n → d'.node? l = some n
  files : ∀ l b, d'.node? l = some (.file b) → d.node? l = some (.file b)

theorem Grown.refl (d : Disk) : d.Grown d := ⟨rfl, fun _ _ h => h, fun _ _ h => h⟩

theorem Grown.trans (h : d.Grown d') (h' : d'.Grown d'') : d.Grown d'' where
  here := h'.here.trans h.here
  keeps l n hn := h'.keeps l n (h.keeps l n hn)
  files l b hb := h.files l b (h'.files l b hb)

theorem grown_set (hl : d.node? l = none) : d.Grown (d.set l .directory) := by
  have hne : l ≠ [] := by
    rintro rfl
    rw [node?_nil] at hl
    exact absurd hl (by simp)
  refine ⟨rfl, ?_, ?_⟩
  · intro k n hk
    have hkl : k ≠ l := by
      rintro rfl
      rw [hl] at hk
      exact absurd hk (by simp)
    rw [node?_set hne, if_neg hkl]
    exact hk
  · intro k b hk
    rw [node?_set hne] at hk
    by_cases hkl : k = l
    · rw [if_pos hkl] at hk
      exact absurd hk (by simp)
    · rwa [if_neg hkl] at hk

/-- A directory is made at the place of its path, if there is nothing. -/
theorem makeDirectory_cases (d : Disk) (p : Path) :
    (d.makeDirectory p).1 = d ∨ ∃ l, d.place p = .ok (some l) ∧ d.node? l = none ∧
      (d.makeDirectory p).1 = d.set l .directory := by
  unfold makeDirectory
  split
  · exact Or.inl rfl
  · exact Or.inl rfl
  · exact Or.inl rfl
  · next l hl =>
    split
    · exact Or.inl rfl
    · next hnone => exact Or.inr ⟨l, hl, by simpa using hnone, rfl⟩

/-- Making a directory takes nothing away and makes no file. -/
theorem grown_makeDirectory (d : Disk) (p : Path) : d.Grown (d.makeDirectory p).1 := by
  rcases d.makeDirectory_cases p with hsame | ⟨l, -, hnone, hmade⟩
  · rw [hsame]
    exact .refl d
  · rw [hmade]
    exact grown_set hnone

/-! ## Following names -/

/-- Where a name leads from a directory. -/
inductive Enters (d : Disk) (l : Location) : Name → Location → Prop
  | stay : Enters d l ['.'] l
  | up : Enters d l ['.', '.'] l.dropLast
  | down {name : Name} (hdot : name ≠ ['.']) (hup : name ≠ ['.', '.'])
      (hlength : byteLength name ≤ nameLimit) (hl : (d.node? (l ++ [name])).isSome) :
      Enters d l name (l ++ [name])

theorem enter_ok_iff : d.enter l name = .ok k ↔ d.node? l = some .directory ∧ d.Enters l name k := by
  constructor
  · intro h
    unfold enter at h
    split at h
    · simp at h
    · next hl =>
      refine ⟨by simpa using hl, ?_⟩
      split at h
      · next hdot =>
        obtain rfl := Except.ok.inj h
        rw [hdot]
        exact .stay
      · next hdot =>
        split at h
        · next hup =>
          obtain rfl := Except.ok.inj h
          rw [hup]
          exact .up
        · next hup =>
          split at h
          · simp at h
          · next hlength =>
            split at h
            · next hsome =>
              obtain rfl := Except.ok.inj h
              exact .down hdot hup (Nat.not_lt.mp hlength) hsome
            · simp at h
  · rintro ⟨hl, h⟩
    cases h with
    | stay => simp [enter, hl]
    | up => simp [enter, hl]
    | down hdot hup hlength hsome =>
      rw [enter, if_neg (by simpa using hl), if_neg hdot, if_neg hup,
        if_neg (Nat.not_lt.mpr hlength), if_pos hsome]

theorem walk_cons_ok_iff {rest : List Name} : d.walk l (name :: rest) = .ok k ↔
    ∃ m, d.node? l = some .directory ∧ d.Enters l name m ∧ d.walk m rest = .ok k := by
  rw [walk]
  constructor
  · intro h
    split at h
    · next m hm =>
      obtain ⟨hl, hm⟩ := enter_ok_iff.1 hm
      exact ⟨m, hl, hm, h⟩
    · simp at h
  · rintro ⟨m, hl, hm, h⟩
    rw [enter_ok_iff.2 ⟨hl, hm⟩]
    exact h

theorem walk_append_ok_iff {rest : List Name} : d.walk l (names ++ rest) = .ok k ↔
    ∃ m, d.walk l names = .ok m ∧ d.walk m rest = .ok k := by
  induction names generalizing l with
  | nil => simp [walk]
  | cons name names ih =>
    rw [List.cons_append, walk_cons_ok_iff]
    constructor
    · rintro ⟨m, hl, hm, h⟩
      obtain ⟨j, hj, hk⟩ := ih.mp h
      exact ⟨j, walk_cons_ok_iff.2 ⟨m, hl, hm, hj⟩, hk⟩
    · rintro ⟨j, hj, hk⟩
      obtain ⟨m, hl, hm, h⟩ := walk_cons_ok_iff.1 hj
      exact ⟨m, hl, hm, ih.mpr ⟨j, h, hk⟩⟩

/-- Where names lead to a directory, they lead through directories. -/
theorem directory_of_walk (h : d.walk l names = .ok k) (hk : d.node? k = some .directory) :
    d.node? l = some .directory := by
  cases names with
  | nil =>
    obtain rfl := Except.ok.inj h
    exact hk
  | cons name rest =>
    obtain ⟨m, hl, -⟩ := walk_cons_ok_iff.1 h
    exact hl

/-- **Names that lead to a directory still do where the directories are kept.** -/
theorem walk_mono (hd : ∀ j, d.node? j = some .directory → d'.node? j = some .directory)
    (h : d.walk l names = .ok k) (hk : d.node? k = some .directory) : d'.walk l names = .ok k := by
  induction names generalizing l with
  | nil => exact h
  | cons name rest ih =>
    obtain ⟨m, hl, hm, hrest⟩ := walk_cons_ok_iff.1 h
    have hdir := hd m (directory_of_walk hrest hk)
    refine walk_cons_ok_iff.2 ⟨m, hd l hl, ?_, ih hrest⟩
    cases hm with
    | stay => exact .stay
    | up => exact .up
    | down hdot hup hlength hsome => exact .down hdot hup hlength (by rw [hdir]; rfl)

/-- Names other than `..` lead down. -/
theorem prefix_of_walk (hup : ['.', '.'] ∉ names) (h : d.walk l names = .ok k) : l <+: k := by
  induction names generalizing l with
  | nil =>
    obtain rfl := Except.ok.inj h
    exact List.prefix_refl l
  | cons name rest ih =>
    obtain ⟨m, -, hm, hrest⟩ := walk_cons_ok_iff.1 h
    have hmk := ih (fun hmem => hup (List.mem_cons_of_mem _ hmem)) hrest
    cases hm with
    | stay => exact hmk
    | up => exact absurd List.mem_cons_self hup
    | down => exact (List.prefix_append l [name]).trans hmk

/-- **Without `..`, names lead nowhere new** but to what was made: where they lead now, and all of the
way was there before, they led there before. -/
theorem walk_back (hg : d.Grown d') (hup : ['.', '.'] ∉ names) (h : d'.walk l names = .ok k)
    (hthere : ∀ j, j <+: k → (d.node? j).isSome) : d.walk l names = .ok k := by
  induction names generalizing l with
  | nil => exact h
  | cons name rest ih =>
    have hupRest : ['.', '.'] ∉ rest := fun hmem => hup (List.mem_cons_of_mem _ hmem)
    obtain ⟨m, hl, hm, hrest⟩ := walk_cons_ok_iff.1 h
    have hmk := prefix_of_walk hupRest hrest
    -- What was there before is now what it was then.
    obtain ⟨n, hn⟩ := Option.isSome_iff_exists.mp (hthere l (prefix_of_walk hup h))
    obtain rfl : n = .directory := Option.some.inj ((hg.keeps l n hn).symm.trans hl)
    refine walk_cons_ok_iff.2 ⟨m, hn, ?_, ih hupRest hrest⟩
    cases hm with
    | stay => exact .stay
    | up => exact absurd List.mem_cons_self hup
    | down hdot hup' hlength _ => exact .down hdot hup' hlength (hthere _ hmk)

/-! ## Following paths -/

/-- What is looked up comes after what no path may be. -/
theorem usable_guard_ok_iff {α : Type} {x : Except PathError α} {a : α} :
    (if p.contains '\x00' then .error .zeroCharacter
      else if p.isEmpty then .error .missing
      else if pathLimit < byteLength p then .error .tooLong
      else x) = .ok a ↔ p.Usable ∧ x = .ok a := by
  unfold Path.Usable
  constructor
  · intro h
    split at h
    · simp at h
    · next hzero =>
      split at h
      · simp at h
      · next hempty =>
        split at h
        · simp at h
        · next hlength =>
          exact ⟨⟨by simpa using hzero, by simpa using hempty, Nat.not_lt.mp hlength⟩, h⟩
  · rintro ⟨⟨hzero, hempty, hlength⟩, h⟩
    rw [hzero, hempty, if_neg Bool.false_ne_true, if_neg Bool.false_ne_true,
      if_neg (Nat.not_lt.mpr hlength)]
    exact h

theorem find_ok_iff : d.find p = .ok l ↔ p.Usable ∧ d.walk (d.origin p) p.names = .ok l ∧
    (p.endsInSlash = true → d.node? l = some .directory) := by
  rw [find, usable_guard_ok_iff]
  refine and_congr_right fun _ => ?_
  cases hwalk : d.walk (d.origin p) p.names with
  | error e => simp
  | ok k =>
    dsimp only
    constructor
    · intro h
      split at h
      · simp at h
      · next hend =>
        obtain rfl := Except.ok.inj h
        exact ⟨rfl, by simpa using hend⟩
    · rintro ⟨hk, hend⟩
      obtain rfl := Except.ok.inj hk
      exact if_neg (by simpa using hend)

theorem place_ok_iff : d.place p = .ok (some l) ↔ p.Usable ∧ ∃ init name k,
    p.names = init ++ [name] ∧ d.walk (d.origin p) init = .ok k ∧ d.node? k = some .directory ∧
      name ≠ ['.'] ∧ name ≠ ['.', '.'] ∧ byteLength name ≤ nameLimit ∧ l = k ++ [name] := by
  rw [place, usable_guard_ok_iff]
  refine and_congr_right fun _ => ?_
  rcases List.eq_nil_or_concat p.names with hnil | ⟨init, name, hnames⟩
  · simp [hnil]
  · rw [List.concat_eq_append] at hnames
    rw [hnames, List.getLast?_concat, List.dropLast_concat]
    dsimp only
    constructor
    · intro h
      split at h
      · simp at h
      · next k hwalk =>
        split at h
        · simp at h
        · next hk =>
          split at h
          · simp at h
          · next hdots =>
            split at h
            · simp at h
            · next hlength =>
              obtain rfl := Option.some.inj (Except.ok.inj h)
              obtain ⟨hdot, hup⟩ := not_or.mp hdots
              exact ⟨init, name, k, rfl, hwalk, by simpa using hk, hdot, hup, Nat.not_lt.mp hlength,
                rfl⟩
    · rintro ⟨init', name', k, hsplit, hwalk, hk, hdot, hup, hlength, rfl⟩
      obtain ⟨rfl, hname⟩ := List.append_inj' hsplit rfl
      obtain rfl := (List.cons.inj hname).1
      rw [hwalk]
      simp only
      rw [if_neg (by simpa using hk), if_neg (not_or.mpr ⟨hdot, hup⟩),
        if_neg (Nat.not_lt.mpr hlength)]

/-- What is at the place of a path is what the path leads to. -/
theorem find_of_place (h : d.place p = .ok (some l)) (hl : (d.node? l).isSome)
    (hend : p.endsInSlash = true → d.node? l = some .directory) : d.find p = .ok l := by
  obtain ⟨husable, init, name, k, hnames, hwalk, hk, hdot, hup, hlength, rfl⟩ := place_ok_iff.1 h
  refine find_ok_iff.2 ⟨husable, ?_, hend⟩
  rw [hnames, walk_append_ok_iff]
  exact ⟨k, hwalk, walk_cons_ok_iff.2 ⟨_, hk, .down hdot hup hlength hl, rfl⟩⟩

/-- A path leads nowhere but to its place. -/
theorem find_eq_of_place (h : d.place p = .ok (some l)) (hfind : d.find p = .ok k) : k = l := by
  obtain ⟨-, init, name, j, hnames, hwalk, -, hdot, hup, -, rfl⟩ := place_ok_iff.1 h
  obtain ⟨-, hall, -⟩ := find_ok_iff.1 hfind
  rw [hnames, walk_append_ok_iff] at hall
  obtain ⟨m, hm, hlast⟩ := hall
  obtain rfl := Except.ok.inj (hm.symm.trans hwalk)
  obtain ⟨_, -, henters, hk⟩ := walk_cons_ok_iff.1 hlast
  obtain rfl := Except.ok.inj hk
  cases henters with
  | stay => exact absurd rfl hdot
  | up => exact absurd rfl hup
  | down => rfl

/-- What a path leads to is at its place, if it is a file. -/
theorem place_of_find {b : Bytes} (ht : d.IsTree) (h : d.find p = .ok l)
    (hl : d.node? l = some (.file b)) : d.place p = .ok (some l) := by
  obtain ⟨husable, hwalk, -⟩ := find_ok_iff.1 h
  refine place_ok_iff.2 ⟨husable, ?_⟩
  rcases List.eq_nil_or_concat p.names with hnil | ⟨init, name, hnames⟩
  · -- A path without names leads to the root.
    rw [hnil] at hwalk
    obtain rfl := Except.ok.inj hwalk
    rw [origin, if_pos (Path.isAbsolute_of_names hnil husable.2.1), node?_nil] at hl
    exact absurd hl (by simp)
  · rw [List.concat_eq_append] at hnames
    rw [hnames, walk_append_ok_iff] at hwalk
    obtain ⟨k, hk, hlast⟩ := hwalk
    obtain ⟨m, hdir, hm, hml⟩ := walk_cons_ok_iff.1 hlast
    obtain rfl := Except.ok.inj hml
    refine ⟨init, name, k, hnames, hk, hdir, ?_⟩
    cases hm with
    | stay =>
      rw [hdir] at hl
      exact absurd hl (by simp)
    | up =>
      rw [ht.dropLast hdir] at hl
      exact absurd hl (by simp)
    | down hdot hup hlength => exact ⟨hdot, hup, hlength, rfl⟩

/-- **A place stays where it is while directories are kept.** -/
theorem place_mono (hhere : d'.here = d.here)
    (hd : ∀ j, d.node? j = some .directory → d'.node? j = some .directory)
    (h : d.place p = .ok (some l)) : d'.place p = .ok (some l) := by
  obtain ⟨husable, init, name, k, hnames, hwalk, hk, hname⟩ := place_ok_iff.1 h
  refine place_ok_iff.2 ⟨husable, init, name, k, hnames, ?_, hd k hk, hname⟩
  rw [origin, hhere]
  exact walk_mono hd hwalk hk

/-- A path that leads to a directory still does while directories are kept. -/
theorem find_mono (hhere : d'.here = d.here)
    (hd : ∀ j, d.node? j = some .directory → d'.node? j = some .directory)
    (h : d.find p = .ok l) (hl : d.node? l = some .directory) : d'.find p = .ok l := by
  obtain ⟨husable, hwalk, -⟩ := find_ok_iff.1 h
  refine find_ok_iff.2 ⟨husable, ?_, fun _ => hd l hl⟩
  rw [origin, hhere]
  exact walk_mono hd hwalk hl

/-- **Without `..`, a place in a grown disk was one before**, if something was there. -/
theorem place_back (ht : d.IsTree) (hg : d.Grown d') (hup : ['.', '.'] ∉ p.names)
    (h : d'.place p = .ok (some l)) (hl : (d.node? l).isSome) : d.place p = .ok (some l) := by
  obtain ⟨husable, init, name, k, hnames, hwalk, -, hdot, hup', hlength, rfl⟩ := place_ok_iff.1 h
  have hthere : ∀ j, j <+: k → (d.node? j).isSome := fun j hj =>
    ht.isSome_of_prefix (hj.trans (List.prefix_append k [name])) hl
  have hupInit : ['.', '.'] ∉ init := by
    intro hmem
    rw [hnames] at hup
    exact hup (List.mem_append_left _ hmem)
  rw [origin, hg.here] at hwalk
  exact place_ok_iff.2 ⟨husable, init, name, k, hnames, walk_back hg hupInit hwalk hthere,
    ht.parent hl, hdot, hup', hlength, rfl⟩

/-! ## Writing and removing -/

theorem ne_nil_of_place (h : d.place p = .ok (some l)) : l ≠ [] := by
  obtain ⟨-, -, name, k, -, -, -, -, -, -, rfl⟩ := place_ok_iff.1 h
  simp

/-- Writing puts a file at the place of its path, unless there can be none. -/
theorem writeFile_cases (d : Disk) (p : Path) (content : Bytes) :
    d.writeFile p content = (d, false) ∨ ∃ l, d.place p = .ok (some l) ∧ p.endsInSlash = false ∧
      d.node? l ≠ some .directory ∧ d.writeFile p content = (d.set l (.file content), true) := by
  unfold writeFile
  split
  · next l hl =>
    split
    · exact Or.inl rfl
    · next hno =>
      simp only [Bool.or_eq_true, beq_iff_eq, not_or, Bool.not_eq_true] at hno
      exact Or.inr ⟨l, hl, hno.1, hno.2, rfl⟩
  · exact Or.inl rfl

/-- Of what is taken away nothing is left. -/
theorem node?_remove_self (hl : l ≠ []) : (d.remove l).node? l = none := by
  rw [node?, if_neg hl, remove, List.lookup_eq_none_iff]
  intro x hx
  have hne : x.1 ≠ l := by simpa using (List.mem_filter.mp hx).2
  simpa using hne.symm

/-- Removing takes away the file that a path leads to, if it leads to one. -/
theorem removeFile_cases (d : Disk) (p : Path) :
    d.removeFile p = (d, false) ∨ ∃ l b, d.find p = .ok l ∧ d.node? l = some (.file b) ∧
      d.removeFile p = (d.remove l, true) := by
  unfold removeFile
  split
  · next l hl =>
    split
    · next b hb => exact Or.inr ⟨l, b, hl, hb, rfl⟩
    · exact Or.inl rfl
  · exact Or.inl rfl

/-- **A file is found where it was written.** -/
theorem find_set {content : Bytes} (h : d.place p = .ok (some l)) (hend : p.endsInSlash = false)
    (hl : d.node? l ≠ some .directory) : (d.set l (.file content)).find p = .ok l := by
  have hne := ne_nil_of_place h
  have hset : (d.set l (.file content)).node? l = some (.file content) := by
    rw [node?_set hne, if_pos rfl]
  have hplace : (d.set l (.file content)).place p = .ok (some l) := by
    refine place_mono (d := d) rfl ?_ h
    intro j hj
    have hjl : j ≠ l := by
      rintro rfl
      exact hl hj
    rw [node?_set hne, if_neg hjl]
    exact hj
  exact find_of_place hplace (by rw [hset]; rfl) (by simp [hend])

end Disk

end DBusTypes
