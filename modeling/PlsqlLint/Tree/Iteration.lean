import PlsqlLint.Tree.Basic

/-!
# Iteration with a stack

An iteration yields a tree and all trees below it, one with each call.  It keeps the trees to come on a stack.
-/

namespace PlsqlLint

/-- An iteration under way: the trees that are still to be yielded with what is below them, the next one at the end. -/
structure Iteration where
  stack : Array Tree

namespace Iteration

/-- The iteration over a tree before the first call. -/
def start (t : Tree) : Iteration := ⟨#[t]⟩

/-- One call: the tree at the end of the stack is yielded, and its children take its place, the first of them at the
end. -/
def next (it : Iteration) : Option Tree × Iteration :=
  match it.stack.back? with
  | none => (none, it)
  | some t => (some t, ⟨it.stack.pop ++ t.children.reverse⟩)

/-- What the call behind `k` others yields. -/
def yield (it : Iteration) : Nat → Option Tree
  | 0 => it.next.1
  | k + 1 => it.next.2.yield k

end Iteration

end PlsqlLint
