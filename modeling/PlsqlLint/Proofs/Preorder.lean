import PlsqlLint.Proofs.Precedence
import PlsqlLint.Tree.Iteration

/-!
# The order in which a tree is listed

`Tree.descendants` is the listing that a tree has by recursion: the tree itself, then the listing of each child from
left to right (`Tree.preorder`).  An `Iteration` yields the same trees, one with each call, and nothing more after the
last of them (`Iteration.yield_start`).

A node is known by its place, which says for each level which child to go to.  Equal trees can stand at different
places, so that each node is listed once is said of places: they come in strictly increasing order, and all of them come
(`Tree.subtree?_places`).
-/

namespace PlsqlLint

namespace Tree

/-! ### The recursive listing -/

mutual

/-- The tree, then the listing of each child from left to right. -/
def preorder : Tree → List Tree
  | .leaf token => [.leaf token]
  | .node rule span children => .node rule span children :: preorderAll children

/-- The listings of all trees of a list. -/
def preorderAll : List Tree → List Tree
  | [] => []
  | t :: ts => t.preorder ++ preorderAll ts

end

private theorem preorder_eq (t : Tree) : t.preorder = t :: preorderAll t.children := by
  cases t <;> rfl

private theorem preorderAll_eq (ts : List Tree) : preorderAll ts = ts.flatMap preorder := by
  induction ts with
  | nil => rfl
  | cons t ts ih => rw [preorderAll, ih, List.flatMap_cons]

private theorem preorderAll_append (ts us : List Tree) : preorderAll (ts ++ us) = preorderAll ts ++ preorderAll us := by
  simp only [preorderAll_eq, List.flatMap_append]

/-- The first tree of a work list, and what the work list is behind it. -/
private theorem preorderAll_cons (t : Tree) (ts : List Tree) :
    preorderAll (t :: ts) = t :: preorderAll (t.children ++ ts) := by
  rw [preorderAll, preorder_eq, preorderAll_append, List.cons_append]

theorem descendants_eq_preorder (t : Tree) : t.descendants = t.preorder := by
  induction t with
  | leaf token => exact descendants_leaf token
  | node rule span children ih =>
    rw [descendants_node, preorder, preorderAll_eq]
    exact congrArg _ (List.flatMap_congr ih)

private theorem length_preorderAll (ts : List Tree) (h : ∀ t ∈ ts, t.preorder.length = t.size) :
    (preorderAll ts).length = sizeAll ts := by
  induction ts with
  | nil => rfl
  | cons t ts ih =>
    rw [List.forall_mem_cons] at h
    rw [preorderAll, List.length_append, h.1, ih h.2, sizeAll]

theorem length_preorder (t : Tree) : t.preorder.length = t.size := by
  induction t with
  | leaf token => rfl
  | node rule span children ih =>
    rw [preorder, List.length_cons, length_preorderAll children ih, size, Nat.add_comm]

end Tree

/-! ### Iteration with a stack -/

namespace Iteration

/-- The trees on the stack, the next one first. -/
def pending (it : Iteration) : List Tree := it.stack.toList.reverse

variable {it : Iteration} {t : Tree} {ts : List Tree}

private theorem next_of_nil (h : it.pending = []) : it.next = (none, it) := by
  obtain ⟨stack⟩ := it
  obtain rfl : stack = #[] := by simpa [pending] using h
  rfl

/-- A call takes the first of the trees and puts its children in front of the others. -/
theorem next_of_cons (h : it.pending = t :: ts) :
    it.next.1 = some t ∧ it.next.2.pending = t.children ++ ts := by
  obtain ⟨stack⟩ := it
  obtain rfl : stack = ts.reverse.toArray.push t := by
    apply Array.toList_inj.1
    simpa [pending, List.reverse_eq_iff] using h
  simp [next, pending]

/-- Whatever is on the stack, the calls yield the listings of these trees, one tree each. -/
theorem yield_eq (it : Iteration) (k : Nat) : it.yield k = (Tree.preorderAll it.pending)[k]? := by
  induction k generalizing it with
  | zero =>
    cases h : it.pending with
    | nil => rw [yield, next_of_nil h]; rfl
    | cons t ts => rw [yield, (next_of_cons h).1, Tree.preorderAll_cons]; rfl
  | succ k ih =>
    cases h : it.pending with
    | nil => rw [yield, ih, next_of_nil h, h]; rfl
    | cons t ts => rw [yield, ih, (next_of_cons h).2, Tree.preorderAll_cons, List.getElem?_cons_succ]

theorem yield_start (t : Tree) (k : Nat) : (start t).yield k = t.preorder[k]? := by
  rw [yield_eq]
  show (t.preorder ++ [])[k]? = _
  rw [List.append_nil]

end Iteration

/-! ### Places -/

namespace Tree

/-- The tree at a place: the numbers of the children to go to, from the root on. -/
def subtree? (t : Tree) : List Nat → Option Tree
  | [] => some t
  | i :: place => t.children[i]?.bind (subtree? · place)

mutual

/-- The places of a tree, in the order of the listing. -/
def places : Tree → List (List Nat)
  | .leaf _ => [[]]
  | .node _ _ children => [] :: placesFrom 0 children

/-- The places in trees that are the children of a node from the `i`-th on. -/
def placesFrom (i : Nat) : List Tree → List (List Nat)
  | [] => []
  | t :: ts => t.places.map (i :: ·) ++ placesFrom (i + 1) ts

end

private theorem places_eq (t : Tree) : t.places = [] :: placesFrom 0 t.children := by
  cases t <;> rfl

private theorem mem_placesFrom {i : Nat} {ts : List Tree} {p : List Nat} :
    p ∈ placesFrom i ts ↔ ∃ k t q, ts[k]? = some t ∧ q ∈ t.places ∧ p = (i + k) :: q := by
  induction ts generalizing i with
  | nil => simp [placesFrom]
  | cons t ts ih =>
    rw [placesFrom, List.mem_append, List.mem_map, ih]
    constructor
    · rintro (⟨q, hq, rfl⟩ | ⟨k, u, q, hu, hq, rfl⟩)
      · exact ⟨0, t, q, rfl, hq, rfl⟩
      · exact ⟨k + 1, u, q, hu, hq, by rw [Nat.add_right_comm, Nat.add_assoc]⟩
    · rintro ⟨k, u, q, hu, hq, rfl⟩
      cases k with
      | zero =>
        obtain rfl := Option.some.inj hu
        exact .inl ⟨q, hq, rfl⟩
      | succ k => exact .inr ⟨k, u, q, hu, hq, by rw [Nat.add_right_comm, Nat.add_assoc]⟩

/-- All places are listed, and nothing else. -/
theorem mem_places {t : Tree} {p : List Nat} : p ∈ t.places ↔ (t.subtree? p).isSome = true := by
  induction p generalizing t with
  | nil => simp [places_eq, subtree?]
  | cons i p ih =>
    rw [places_eq, List.mem_cons, mem_placesFrom, subtree?]
    constructor
    · rintro (h | ⟨k, u, q, hu, hq, h⟩)
      · cases h
      · obtain ⟨rfl, rfl⟩ := List.cons.inj h
        rw [Nat.zero_add, hu, Option.bind_some]
        exact ih.1 hq
    · intro h
      cases hu : t.children[i]? with
      | none => simp [hu] at h
      | some u =>
        rw [hu, Option.bind_some] at h
        exact .inr ⟨i, u, p, hu, ih.2 h, by rw [Nat.zero_add]⟩

/-- The children come one after the other, so their places do. -/
private theorem pairwise_placesFrom (i : Nat) (ts : List Tree) (h : ∀ t ∈ ts, t.places.Pairwise (· < ·)) :
    (placesFrom i ts).Pairwise (· < ·) := by
  induction ts generalizing i with
  | nil => exact .nil
  | cons t ts ih =>
    rw [List.forall_mem_cons] at h
    rw [placesFrom, List.pairwise_append]
    refine ⟨List.pairwise_map.2 (h.1.imp List.cons_lt_cons_self.2), ih (i + 1) h.2, ?_⟩
    intro p hp q hq
    obtain ⟨p', -, rfl⟩ := List.mem_map.1 hp
    obtain ⟨k, -, q', -, -, rfl⟩ := mem_placesFrom.1 hq
    exact List.cons_lt_cons_iff.2 (.inl (by omega))

private theorem pairwise_places (t : Tree) : t.places.Pairwise (· < ·) := by
  induction t with
  | leaf token => exact List.pairwise_singleton _ _
  | node rule span children ih =>
    rw [places, List.pairwise_cons]
    refine ⟨?_, pairwise_placesFrom 0 children ih⟩
    intro p hp
    obtain ⟨k, -, q, -, -, rfl⟩ := mem_placesFrom.1 hp
    exact List.nil_lt_cons _ _

/-- What stands at the places of children, if what stands at the places of each is its listing. -/
private theorem subtree?_placesFrom {t : Tree} (ts : List Tree) {us : List Tree} (ht : t.children = ts ++ us)
    (h : ∀ u ∈ us, u.places.map u.subtree? = u.preorder.map some) :
    (placesFrom ts.length us).map t.subtree? = (preorderAll us).map some := by
  induction us generalizing ts with
  | nil => rfl
  | cons u us ih =>
    rw [List.forall_mem_cons] at h
    have hrest := ih (ts ++ [u]) (by rw [ht, List.append_assoc]; rfl) h.2
    have hget : t.children[ts.length]? = some u := by rw [ht]; simp
    have hchild : t.subtree? ∘ (ts.length :: ·) = u.subtree? := by
      funext place
      rw [Function.comp_apply, subtree?, hget, Option.bind_some]
    rw [List.length_append, List.length_singleton] at hrest
    rw [placesFrom, List.map_append, List.map_map, hchild, h.1, hrest, preorderAll, List.map_append]

/-- At the places of a tree stand the trees of its listing. -/
theorem subtree?_places (t : Tree) : t.places.map t.subtree? = t.preorder.map some := by
  induction t with
  | leaf token => rfl
  | node rule span children ih =>
    have hchildren := subtree?_placesFrom (t := .node rule span children) [] rfl ih
    rw [places, preorder, List.map_cons, List.map_cons]
    exact congrArg _ hchildren

/-- The listing of a tree is the recursive one, with as many trees as the tree has nodes.  An iteration with a stack
yields these trees with its first calls and nothing with all others.  The listing goes through the places of the tree in
strictly increasing order and leaves none out; so do the tokens with the leaves.  The tokens of an inner node are those
of its children, one after the other. -/
theorem descendants_in_preorder (t : Tree) :
    t.descendants = t.preorder ∧ t.descendants.length = t.size ∧
    (∀ k, (Iteration.start t).yield k = t.descendants[k]?) ∧
    (∃ order : List (List Nat), order.Pairwise (· < ·) ∧ (∀ p, p ∈ order ↔ (t.subtree? p).isSome = true) ∧
      t.descendants.map some = order.map t.subtree? ∧
      t.tokens = order.filterMap fun p => (t.subtree? p).bind token?) ∧
    t.tokens = match t with
      | .leaf token => [token]
      | .node _ _ children => children.flatMap tokens := by
  have hlisting := t.descendants_eq_preorder
  refine ⟨hlisting, hlisting ▸ t.length_preorder, fun k => hlisting ▸ Iteration.yield_start t k, ?_, ?_⟩
  · refine ⟨t.places, t.pairwise_places, fun p => mem_places, by rw [hlisting, t.subtree?_places], ?_⟩
    calc t.tokens = (t.preorder.map some).filterMap (·.bind token?) := by
          rw [tokens, hlisting, List.filterMap_map]
          rfl
      _ = t.places.filterMap fun p => (t.subtree? p).bind token? := by
          rw [← t.subtree?_places, List.filterMap_map]
          rfl
  · cases t with
    | leaf token => exact tokens_leaf token
    | node rule span children => exact tokens_node rule span children

end Tree

end PlsqlLint
