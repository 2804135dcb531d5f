import DBusTypes.Nest
import DBusTypes.Grammar

/-!
# Paths in the tree of a type

How deep a type is nested can be told along the paths from its root: each node has a path, with the
arrays, structs and dict-entries that are met on the way to it, the node itself included.

* `Ty.paths` — the paths of a type
* `Ty.fit_iff_paths` — **types keep within a limit exactly if each of their paths does**
-/

namespace DBusTypes

/-! ## What is on a path -/

/-- Whether there are at most `m` arrays and structs and at most `n` dict-entries on a path. -/
def PathWithin (m n : Nat) (path : List Container) : Prop :=
  path.countP (· != .dictEntry) ≤ m ∧ path.count .dictEntry ≤ n

theorem pathWithin_nil (m n : Nat) : PathWithin m n [] := ⟨Nat.zero_le m, Nat.zero_le n⟩

theorem pathWithin_container {x : Container} {m n : Nat} {p : List Container}
    (h : x ≠ .dictEntry) : PathWithin m n (x :: p) ↔ 1 ≤ m ∧ PathWithin (m - 1) n p := by
  rw [PathWithin, PathWithin, List.countP_cons_of_pos (by simpa using h),
    List.count_cons_of_ne h]
  omega

theorem pathWithin_entry {m n : Nat} {p : List Container} :
    PathWithin m n (.dictEntry :: p) ↔ 1 ≤ n ∧ PathWithin m (n - 1) p := by
  rw [PathWithin, PathWithin, List.countP_cons_of_neg (by simp), List.count_cons_self]
  omega

/-- A node above some paths adds itself to each of them, and has a path of its own. -/
theorem forall_pathWithin_below {x : Container} {m n : Nat} (ps : List (List Container))
    (h : x ≠ .dictEntry) :
    (∀ p ∈ [x] :: ps.map (x :: ·), PathWithin m n p) ↔
      1 ≤ m ∧ ∀ p ∈ ps, PathWithin (m - 1) n p := by
  simp only [List.forall_mem_cons, List.forall_mem_map, pathWithin_container h]
  exact ⟨fun h => ⟨h.1.1, fun p hp => (h.2 p hp).2⟩,
    fun h => ⟨⟨h.1, pathWithin_nil _ _⟩, fun p hp => ⟨h.1, h.2 p hp⟩⟩⟩

theorem forall_pathWithin_below_entry {m n : Nat} (ps : List (List Container)) :
    (∀ p ∈ [.dictEntry] :: ps.map (.dictEntry :: ·), PathWithin m n p) ↔
      1 ≤ n ∧ ∀ p ∈ ps, PathWithin m (n - 1) p := by
  simp only [List.forall_mem_cons, List.forall_mem_map, pathWithin_entry]
  exact ⟨fun h => ⟨h.1.1, fun p hp => (h.2 p hp).2⟩,
    fun h => ⟨⟨h.1, pathWithin_nil _ _⟩, fun p hp => ⟨h.1, h.2 p hp⟩⟩⟩

/-! ## The paths of a type -/

namespace Ty

mutual

/-- The paths from the root of a type to its nodes, each as the containers on it, outermost first.
A key has no container of its own, so its path is that of its dict-entry. -/
def paths : Ty → List (List Container)
  | basic _ | variant => [[]]
  | array t => [.array] :: (paths t).map (.array :: ·)
  | dict _ v =>
    [.array] :: ([.dictEntry] :: (paths v).map (.dictEntry :: ·)).map (.array :: ·)
  | struct t ts => [.struct] :: (paths t ++ pathsAll ts).map (.struct :: ·)

/-- The paths of all types of a list. -/
def pathsAll : List Ty → List (List Container)
  | [] => []
  | t :: ts => paths t ++ pathsAll ts

end

mutual

theorem forall_paths : ∀ (t : Ty) (m n : Nat),
    (∀ p ∈ paths t, PathWithin m n p) ↔ t.containers ≤ m ∧ t.entries ≤ n
  | .basic _, m, n => by simp [paths, containers, entries, pathWithin_nil]
  | .variant, m, n => by simp [paths, containers, entries, pathWithin_nil]
  | .array t, m, n => by
    rw [paths, forall_pathWithin_below _ (by decide), forall_paths t, containers, entries]
    omega
  | .dict _ v, m, n => by
    rw [paths, forall_pathWithin_below _ (by decide), forall_pathWithin_below_entry, forall_paths v,
      containers, entries]
    omega
  | .struct t ts, m, n => by
    rw [paths, forall_pathWithin_below _ (by decide), List.forall_mem_append, forall_paths t,
      forall_pathsAll ts, containers, entries]
    omega

theorem forall_pathsAll : ∀ (ts : List Ty) (m n : Nat),
    (∀ p ∈ pathsAll ts, PathWithin m n p) ↔ containersAll ts ≤ m ∧ entriesAll ts ≤ n
  | [], m, n => by simp [pathsAll, containersAll, entriesAll]
  | t :: ts, m, n => by
    rw [pathsAll, List.forall_mem_append, forall_paths t, forall_pathsAll ts, containersAll,
      entriesAll]
    omega

end

/-- **Types keep within a limit exactly if each of their paths does.** -/
theorem fit_iff_paths (limit : Depth) (ts : List Ty) :
    Fit limit ts ↔ ∀ p ∈ pathsAll ts, PathWithin limit.containers.toNat limit.entries.toNat p :=
  (forall_pathsAll ts _ _).symm

end Ty

end DBusTypes
