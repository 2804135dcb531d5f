import DBusTypes.Excerpt

/-!
# The tree of a type

Every type with everything in it: an excerpt and, below it, the trees of its children.

* `Excerpt.tree` — the tree of a type
* `Excerpts.forest` — the trees of all types of a text
* `TypeTree.preorder` — each type before its children, with its depth
-/

namespace DBusTypes

/-- A type and the types in it. -/
inductive TypeTree where
  | node (root : Excerpt) (children : List TypeTree)

/-- The tree of a type. -/
def Excerpt.tree (x : Excerpt) : TypeTree :=
  .node x (x.children.toList.attach.map fun y => y.1.tree)
termination_by x.text.length
decreasing_by exact Excerpt.length_lt_of_mem_children y.2

/-- The tree of a type is its own excerpt above the trees of its children. -/
theorem Excerpt.tree_eq (x : Excerpt) : x.tree = .node x (x.children.toList.map Excerpt.tree) := by
  rw [Excerpt.tree]
  simp

/-- The trees of all types that are left. -/
def Excerpts.forest (it : Excerpts) : List TypeTree := it.toList.map Excerpt.tree

namespace TypeTree

def root : TypeTree → Excerpt
  | node x _ => x

def children : TypeTree → List TypeTree
  | node _ ts => ts

mutual

/-- Each type of a tree before its children, with its depth; the root has depth `depth`. -/
def preorder (depth : Nat) : TypeTree → List (Nat × Excerpt)
  | node x ts => (depth, x) :: preorderAll (depth + 1) ts

/-- The same for each tree of a list, one after the other. -/
def preorderAll (depth : Nat) : List TypeTree → List (Nat × Excerpt)
  | [] => []
  | t :: ts => preorder depth t ++ preorderAll depth ts

end

end TypeTree

end DBusTypes
