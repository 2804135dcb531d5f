import Mathlib.Data.List.TakeWhile
import DBusTypes.Proofs.Resolve

/-!
# Parents

The parent of a path is found in its text, without a look at any disk: the last name is dropped, and
with it the slashes and names `.` on both sides of it. That a file can be put at a path depends on the
directory that the names in front of its last one lead to. These two have to do with each other: where
a file can be put, the parent leads to the directory.

* `Path.Idle` — names that lead nowhere else
* `Path.names_of_parent?` — **what the names of a path are to those of its parent**
* `Disk.find_parent` — a parent is there, where its path has a place
-/

namespace DBusTypes

namespace Path

variable {p q x : Path} {r : List Char}

/-! ## Names between slashes -/

theorem namesFrom_append_slash (piece : Name) (p q : Path) :
    namesFrom piece (p ++ '/' :: q) = namesFrom piece p ++ namesFrom [] q := by
  induction p generalizing piece with
  | nil =>
    rw [List.nil_append, namesFrom, namesFrom, if_pos rfl]
    cases piece <;> rfl
  | cons c p ih =>
    rw [List.cons_append, namesFrom, namesFrom]
    by_cases hc : c = '/'
    · rw [if_pos hc, if_pos hc]
      cases piece with
      | nil => exact ih []
      | cons a piece =>
        rw [if_neg (by simp), if_neg (by simp), List.cons_append, ih]
    · rw [if_neg hc, if_neg hc]
      exact ih (c :: piece)

/-- The names on both sides of a slash. -/
theorem names_append_slash (p q : Path) : (p ++ '/' :: q).names = p.names ++ q.names :=
  namesFrom_append_slash [] p q

theorem namesFrom_of_not_mem (piece : Name) (h : '/' ∉ p) (hne : piece.reverse ++ p ≠ []) :
    namesFrom piece p = [piece.reverse ++ p] := by
  induction p generalizing piece with
  | nil =>
    have hpiece : piece.isEmpty = false := by simpa using hne
    rw [namesFrom, hpiece, List.append_nil]
    rfl
  | cons c p ih =>
    have hc : c ≠ '/' := by
      rintro rfl
      exact h List.mem_cons_self
    have hp : '/' ∉ p := fun hmem => h (List.mem_cons_of_mem c hmem)
    rw [namesFrom, if_neg hc, ih (c :: piece) hp (by simp), List.reverse_cons, List.append_assoc]
    rfl

/-- A text without slashes is a name. -/
theorem names_of_not_mem (h : '/' ∉ p) (hne : p ≠ []) : p.names = [p] :=
  namesFrom_of_not_mem [] h hne

/-! ## Dropping the last name -/

/-- Whether names lead nowhere else. -/
def Idle (names : List Name) : Prop := ∀ name ∈ names, name = ['.']

theorem dropIdle_suffix (r : List Char) : dropIdle r <:+ r := by
  fun_induction dropIdle r with
  | case1 r ih => exact ih.trans (List.suffix_cons _ _)
  | case2 => exact List.nil_suffix
  | case3 r ih => exact ih.trans ((List.suffix_cons _ _).trans (List.suffix_cons _ _))
  | case4 r => exact List.suffix_refl r

theorem dropIdle_ne_slash (r : List Char) : dropIdle r ≠ '/' :: x := by
  fun_induction dropIdle r with
  | case1 r ih => exact ih
  | case2 => exact (List.cons_ne_nil _ _).symm
  | case3 r ih => exact ih
  | case4 r hslash => exact fun h => hslash x h

/-- What is dropped without a name of its own are slashes and names `.`. -/
theorem names_dropIdle (r : List Char) :
    ∃ idle, Idle idle ∧ names r.reverse = names (dropIdle r).reverse ++ idle := by
  fun_induction dropIdle r with
  | case1 r ih =>
    obtain ⟨idle, hidle, h⟩ := ih
    refine ⟨idle, hidle, ?_⟩
    rw [List.reverse_cons, names_append_slash, h]
    exact List.append_nil _
  | case2 => exact ⟨[['.']], fun _ => List.mem_singleton.mp, rfl⟩
  | case3 r ih =>
    obtain ⟨idle, hidle, h⟩ := ih
    refine ⟨idle ++ [['.']], ?_, ?_⟩
    · intro name hname
      rcases List.mem_append.mp hname with hname | hname
      · exact hidle name hname
      · exact List.mem_singleton.mp hname
    · rw [List.reverse_cons, List.reverse_cons, List.append_assoc]
      show names (r.reverse ++ '/' :: ['.']) = _
      rw [names_append_slash, h, List.append_assoc]
      rfl
  | case4 => exact ⟨[], fun _ h => absurd h List.not_mem_nil, (List.append_nil _).symm⟩

/-- The last name is dropped with the slash in front of it. -/
theorem names_dropName (hne : r ≠ []) (hslash : ∀ x, r ≠ '/' :: x) :
    ∃ name, names r.reverse = names (dropName r).reverse ++ [name] := by
  have hr : r.takeWhile (· != '/') ++ r.dropWhile (· != '/') = r := List.takeWhile_append_dropWhile
  have hname : (r.takeWhile (· != '/')).reverse ≠ [] := by
    cases r with
    | nil => exact absurd rfl hne
    | cons c r =>
      have hc : c ≠ '/' := by
        rintro rfl
        exact hslash r rfl
      simp [hc]
  have hfree : '/' ∉ (r.takeWhile (· != '/')).reverse := by
    intro hmem
    exact absurd (List.mem_takeWhile_imp (List.mem_reverse.mp hmem)) (by simp)
  refine ⟨(r.takeWhile (· != '/')).reverse, ?_⟩
  rw [← names_of_not_mem hfree hname, dropName]
  cases hrest : r.dropWhile (· != '/') with
  | nil =>
    rw [hrest, List.append_nil] at hr
    rw [hr]
    rfl
  | cons c u =>
    have hc : c = '/' := by
      have hne' : r.dropWhile (· != '/') ≠ [] := by simp [hrest]
      have hhead := List.head_dropWhile_not (· != '/') hne'
      simpa [hrest] using hhead
    have hreverse : r.reverse = u.reverse ++ '/' :: (r.takeWhile (· != '/')).reverse := by
      conv_lhs => rw [← hr, hrest, hc]
      simp
    rw [hreverse, names_append_slash]
    rfl

theorem dropName_suffix (r : List Char) : dropName r <:+ r :=
  (List.drop_suffix 1 _).trans (List.dropWhile_suffix _)

/-! ## The parent -/

/-- What is in front of all names stands alone. -/
theorem names_front (h : x <+: p.drop (front p).length) :
    names (front p ++ x) = names (front p) ++ names x := by
  unfold front at h ⊢
  split
  · exact names_append_slash [] x
  · obtain rfl := List.prefix_nil.mp h
    rfl
  · cases x with
    | nil => rfl
    | cons c x =>
      obtain ⟨rfl, -⟩ := List.cons_prefix_cons.mp h
      have hslash : names ('/' :: x) = names x := names_append_slash [] x
      rw [hslash]
      exact names_append_slash ['.'] x
  · rfl

theorem front_append_drop (p : Path) : front p ++ p.drop (front p).length = p := by
  unfold front
  split <;> rfl

/-- **The names of a path** are those of its parent, one more name, and names that lead nowhere else. -/
theorem names_of_parent? (h : p.parent? = some q) (hne : q ≠ []) :
    q <+: p ∧ ∃ idle name idle', Idle idle ∧ Idle idle' ∧
      p.names = q.names ++ (idle ++ name :: idle') := by
  unfold parent? at h
  split at h
  · split at h
    · exact absurd (Option.some.inj h).symm hne
    · exact absurd h (by simp)
  · next hrest =>
    obtain rfl := Option.some.inj h
    have hp := front_append_drop p
    have hnames : ∀ x, x <+: p.drop (front p).length → names (front p ++ x) = _ := fun x hx =>
      names_front hx
    generalize p.drop (front p).length = rest at hp hnames hrest ⊢
    obtain ⟨idle', hidle', hback⟩ := names_dropIdle rest.reverse
    obtain ⟨name, hname⟩ := names_dropName hrest fun _ => dropIdle_ne_slash _
    obtain ⟨idle, hidle, hfront⟩ := names_dropIdle (dropName (dropIdle rest.reverse))
    have hprefix : (dropIdle (dropName (dropIdle rest.reverse))).reverse <+: rest := by
      rw [← List.reverse_suffix, List.reverse_reverse]
      exact (dropIdle_suffix _).trans ((dropName_suffix _).trans (dropIdle_suffix _))
    refine ⟨?_, idle, name, idle', hidle, hidle', ?_⟩
    · conv_rhs => rw [← hp]
      exact (List.prefix_append_right_inj _).mpr hprefix
    · rw [List.reverse_reverse] at hback
      conv_lhs => rw [← hp]
      rw [hnames rest (List.prefix_refl _), hnames _ hprefix, hback, hname, hfront]
      simp only [List.append_assoc, List.singleton_append]

/-! ## Texts in front -/

theorem byteLength_append (p q : Path) : byteLength (p ++ q) = byteLength p + byteLength q := by
  rw [byteLength, String.ofList_append, utf8_append, List.length_append]
  rfl

/-- What stands in front of a path can be looked up with it. -/
theorem Usable.of_prefix (h : p.Usable) (hq : q <+: p) (hne : q ≠ []) : q.Usable := by
  obtain ⟨hzero, -, hlength⟩ := h
  obtain ⟨x, rfl⟩ := hq
  refine ⟨?_, by simpa using hne, ?_⟩
  · simp only [List.contains_append, Bool.or_eq_false_iff] at hzero
    exact hzero.1
  · rw [byteLength_append] at hlength
    omega

theorem isAbsolute_of_prefix (hq : q <+: p) (hne : q ≠ []) : q.isAbsolute = p.isAbsolute := by
  obtain ⟨x, rfl⟩ := hq
  cases q with
  | nil => exact absurd rfl hne
  | cons c q => rfl

end Path

namespace Disk

variable {d : Disk} {l k : Location} {p q : Path} {names : List Name}

theorem walk_idle (h : Path.Idle names) (hwalk : d.walk l names = .ok k) : k = l := by
  induction names with
  | nil => exact (Except.ok.inj hwalk).symm
  | cons name names ih =>
    obtain rfl := h name List.mem_cons_self
    obtain ⟨m, -, henters, hrest⟩ := walk_cons_ok_iff.1 hwalk
    cases henters with
    | stay => exact ih (fun n hn => h n (List.mem_cons_of_mem _ hn)) hrest
    | down hdot => exact absurd rfl hdot

/-- **A parent is there, where its path has a place.** -/
theorem find_parent (h : d.place p = .ok (some l)) (hparent : p.parent? = some q) (hne : q ≠ []) :
    ∃ k, d.find q = .ok k ∧ d.node? k = some .directory := by
  obtain ⟨husable, init, last, k, hnames, hwalk, hk, hdot, -⟩ := place_ok_iff.1 h
  obtain ⟨hq, idle, name, idle', hidle, hidle', hsplit⟩ := Path.names_of_parent? hparent hne
  -- The last name of the path leads on, so it is the one that the parent lacks.
  have hinit : init = q.names ++ idle := by
    rcases List.eq_nil_or_concat idle' with rfl | ⟨front, n, rfl⟩
    · rw [hnames, ← List.append_assoc] at hsplit
      exact (List.append_inj' hsplit rfl).1
    · rw [hnames, List.concat_eq_append, ← List.cons_append, ← List.append_assoc,
        ← List.append_assoc] at hsplit
      obtain rfl := List.singleton_inj.mp (List.append_inj' hsplit rfl).2
      exact absurd (hidle' last (by simp)) hdot
  rw [hinit, walk_append_ok_iff] at hwalk
  obtain ⟨m, hm, hrest⟩ := hwalk
  obtain rfl := walk_idle hidle hrest
  have horigin : d.origin q = d.origin p := by
    rw [origin, origin, Path.isAbsolute_of_prefix hq hne]
  rw [← horigin] at hm
  exact ⟨k, find_ok_iff.2 ⟨husable.of_prefix hq hne, hm, fun _ => hk⟩, hk⟩

end Disk

end DBusTypes
