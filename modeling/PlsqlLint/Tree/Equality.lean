import PlsqlLint.Tree.Traversal

/-!
# Equality of trees

Two trees are equal when they are built alike and their tokens have the same text, whatever their places and trivia.
The comparison keeps the pairs still to be compared on a stack and stops at the first pair whose roots do not agree.
-/

namespace PlsqlLint

namespace Tree

/-- Whether the roots agree: the same rule over equally many children, or tokens of the same text. -/
def sameRoot : Tree → Tree → Bool
  | .leaf a, .leaf b => a.sameText b
  | .node r _ as, .node s _ bs => r == s && as.length == bs.length
  | _, _ => false

private theorem sizeAll_zip_le (as bs : List Tree) : sizeAll ((as.zip bs).map Prod.fst) ≤ sizeAll as := by
  induction as generalizing bs with
  | nil => simp [sizeAll]
  | cons a as ih =>
    cases bs with
    | nil => simp [sizeAll]
    | cons b bs =>
      have := ih bs
      simp only [List.zip_cons_cons, List.map_cons, sizeAll]; omega

private theorem sizeAll_reverse (ts : List Tree) : sizeAll ts.reverse = sizeAll ts := by
  induction ts with
  | nil => rfl
  | cons t ts ih => rw [List.reverse_cons, sizeAll_append, ih, sizeAll, sizeAll, sizeAll]; omega

/-- Whether the trees of every pair on a stack are equal.  The children of a pair are put onto the stack from left to
right, so the last pair of children is compared next. -/
def equalAll : List (Tree × Tree) → Bool
  | [] => true
  | (a, b) :: stack => a.sameRoot b && equalAll ((a.children.zip b.children).reverse ++ stack)
termination_by stack => sizeAll (stack.map Prod.fst)
decreasing_by
  have h1 := sizeAll_zip_le a.children b.children
  have h2 := sizeAll_children_lt a
  rw [List.map_append, List.map_reverse, sizeAll_append, sizeAll_reverse, List.map_cons, sizeAll]; dsimp only; omega

/-- Equality of trees up to places, trivia and the case rules of the language. -/
def equal (a b : Tree) : Bool := equalAll [(a, b)]

end Tree

end PlsqlLint
