import PlsqlLint.Tree.Basic

/-!
# Walking through a tree

`Tree.descendants` lists a tree and all trees below it, parents before children and children from left to right.  It
keeps the trees still to be listed in a work list, so a deep tree needs no deep recursion.  `Tree.tokens` are the
tokens of the leaves in the order of the source.
-/

namespace PlsqlLint

namespace Tree

mutual

/-- The number of nodes of a tree. -/
def size : Tree → Nat
  | .leaf _ => 1
  | .node _ _ children => 1 + sizeAll children

/-- The number of nodes of all trees of a list. -/
def sizeAll : List Tree → Nat
  | [] => 0
  | t :: ts => t.size + sizeAll ts

end

mutual

/-- The number of levels of a tree. -/
def levels : Tree → Nat
  | .leaf _ => 1
  | .node _ _ children => 1 + levelsAll children

/-- The number of levels of the highest tree of a list. -/
def levelsAll : List Tree → Nat
  | [] => 0
  | t :: ts => max t.levels (levelsAll ts)

end

theorem sizeAll_append (ts us : List Tree) : sizeAll (ts ++ us) = sizeAll ts + sizeAll us := by
  induction ts with
  | nil => simp [sizeAll]
  | cons t ts ih => rw [List.cons_append, sizeAll, sizeAll, ih, Nat.add_assoc]

theorem sizeAll_children_lt (t : Tree) : sizeAll t.children < t.size := by
  cases t <;> simp [children, size, sizeAll]

/-- The trees of a work list, each followed by the trees below it. -/
def listing : List Tree → List Tree
  | [] => []
  | t :: work => t :: listing (t.children ++ work)
termination_by work => sizeAll work
decreasing_by
  have := sizeAll_children_lt t
  rw [sizeAll_append, sizeAll]; omega

/-- The tree and all trees below it, parents before children and children from left to right. -/
def descendants (t : Tree) : List Tree := listing [t]

/-- The tokens of the leaves, in the order of the source. -/
def tokens (t : Tree) : List Token := t.descendants.filterMap token?

/-- The first tree with the symbol strictly below the root. -/
def find? (t : Tree) (symbol : Symbol) : Option Tree := (t.descendants.drop 1).find? (·.is symbol)

mutual

/-- A tree and all trees below it, each with its distance from the root, where the root has distance `depth`. -/
def outline (depth : Nat) : Tree → List (Nat × Tree)
  | .leaf token => [(depth, .leaf token)]
  | .node rule span children => (depth, .node rule span children) :: outlineAll (depth + 1) children

/-- The outlines of all trees of a list. -/
def outlineAll (depth : Nat) : List Tree → List (Nat × Tree)
  | [] => []
  | t :: ts => t.outline depth ++ outlineAll depth ts

end

end Tree

end PlsqlLint
