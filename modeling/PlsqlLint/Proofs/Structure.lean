import Mathlib
import PlsqlLint.Proofs.Equality

/-!
# Equality of trees follows their structure

The comparison of two trees works through a stack of pairs, from the last child to the first and only up to the first
pair whose roots do not agree.  It comes to the same as the comparison by recursion on both trees (`Tree.alike`).

Two trees are equal just if they have the same canonical form, in which all tokens have their text folded and stand at
no place (`Tree.equal_iff_relabel`).  So equality is an equivalence, and it does not see places and trivia
(`Tree.equal_structure`).
-/

namespace PlsqlLint

/-! ### Tokens at no place -/

namespace Token

/-- The token at no place and without trivia. -/
def unplaced (t : Token) : Token := { t with span := default, trivia := [] }

/-- The token at no place, with its text as it counts in a comparison. -/
def canonical (t : Token) : Token := ⟨t.terminal, String.ofList t.folded, default, []⟩

theorem sameText_iff_canonical {s t : Token} : s.sameText t = true ↔ s.canonical = t.canonical := by
  simp [sameText_iff, canonical, String.ofList_inj]

end Token

namespace Tree

/-! ### Comparison by recursion -/

mutual

/-- Whether two trees are built alike: two leaves whose tokens have the same text, terminal included, or two nodes of
one rule whose children are alike. -/
def alike : Tree → Tree → Bool
  | .leaf s, .leaf t => s.sameText t
  | .node r _ as, .node q _ bs => r == q && alikeAll as bs
  | _, _ => false

/-- Whether there are equally many trees on both sides, alike one by one. -/
def alikeAll : List Tree → List Tree → Bool
  | [], [] => true
  | a :: as, b :: bs => a.alike b && alikeAll as bs
  | _, _ => false

end

private theorem alikeAll_iff {as bs : List Tree} :
    alikeAll as bs = true ↔ List.Forall₂ (fun a b => a.alike b = true) as bs := by
  induction as generalizing bs with
  | nil => cases bs <;> simp [alikeAll]
  | cons a as ih =>
    cases bs with
    | nil => simp [alikeAll]
    | cons b bs => rw [alikeAll, Bool.and_eq_true, ih, List.forall₂_cons]

/-- Two ways to compare agree on lists if they agree on what is compared. -/
private theorem forall₂_congr_of_mem {R S : Tree → Tree → Prop} {as : List Tree} (h : ∀ a ∈ as, ∀ b, R a b ↔ S a b)
    (bs : List Tree) : List.Forall₂ R as bs ↔ List.Forall₂ S as bs := by
  induction as generalizing bs with
  | nil => rw [List.forall₂_nil_left_iff, List.forall₂_nil_left_iff]
  | cons a as ih =>
    rw [List.forall_mem_cons] at h
    cases bs with
    | nil => simp
    | cons b bs => rw [List.forall₂_cons, List.forall₂_cons, h.1, ih h.2]

/-- The stack and the recursion come to the same. -/
theorem equal_eq_alike (a b : Tree) : a.equal b = a.alike b := by
  induction a generalizing b with
  | leaf s =>
    cases b with
    | leaf t => rw [equal_leaf, alike]
    | node q sp bs => rw [equal_eq, sameRoot, Bool.false_and, alike] <;> simp
  | node r sp as ih =>
    cases b with
    | leaf t => rw [equal_eq, sameRoot, Bool.false_and, alike] <;> simp
    | node q sp' bs =>
      have hchildren := forall₂_congr_of_mem (fun a ha b => Bool.eq_iff_iff.1 (ih a ha b)) bs
      rw [Bool.eq_iff_iff, equal_node_iff, hchildren, alike, Bool.and_eq_true, beq_iff_eq, alikeAll_iff]

/-! ### Canonical forms -/

mutual

/-- The tree without the spans of its nodes and with other tokens at its leaves. -/
def relabel (f : Token → Token) : Tree → Tree
  | .leaf t => .leaf (f t)
  | .node r _ children => .node r default (relabelAll f children)

/-- The same for all trees of a list. -/
def relabelAll (f : Token → Token) : List Tree → List Tree
  | [] => []
  | t :: ts => t.relabel f :: relabelAll f ts

end

private theorem relabelAll_eq_map (f : Token → Token) (ts : List Tree) : relabelAll f ts = ts.map (relabel f) := by
  induction ts with
  | nil => rfl
  | cons t ts ih => rw [relabelAll, ih, List.map_cons]

private theorem relabel_relabel (f g : Token → Token) (t : Tree) : (t.relabel g).relabel f = t.relabel (f ∘ g) := by
  induction t with
  | leaf t => rfl
  | node r sp children ih =>
    simp only [relabel, relabelAll_eq_map, List.map_map, node.injEq, true_and]
    exact List.map_congr_left ih

/-- Trees are equal if, and only if, they have the same canonical form. -/
theorem equal_iff_relabel {a b : Tree} :
    a.equal b = true ↔ a.relabel Token.canonical = b.relabel Token.canonical := by
  induction a generalizing b with
  | leaf s =>
    cases b with
    | leaf t => rw [equal_leaf, relabel, relabel, leaf.injEq, Token.sameText_iff_canonical]
    | node q sp bs => simp [equal_eq, sameRoot, relabel]
  | node r sp as ih =>
    cases b with
    | leaf t => simp [equal_eq, sameRoot, relabel]
    | node q sp' bs =>
      rw [equal_node_iff, forall₂_congr_of_mem fun a ha b => ih a ha]
      simp only [relabel, relabelAll_eq_map, node.injEq, true_and]
      rw [← List.forall₂_eq_eq_eq, List.forall₂_map_left_iff, List.forall₂_map_right_iff]

/-- The tree without places and trivia. -/
def unplaced (t : Tree) : Tree := t.relabel Token.unplaced

private theorem relabel_unplaced (t : Tree) : t.unplaced.relabel Token.canonical = t.relabel Token.canonical := by
  rw [unplaced, relabel_relabel]
  rfl

private theorem equal_unplaced (a b : Tree) : a.unplaced.equal b.unplaced = a.equal b := by
  rw [Bool.eq_iff_iff, equal_iff_relabel, equal_iff_relabel, relabel_unplaced, relabel_unplaced]

/-- The comparison with a stack of pairs is the comparison by recursion.  It is an equivalence on all trees, and it does
not change when other places and other trivia are put into either tree. -/
theorem equal_structure :
    (∀ a b : Tree, a.equal b = a.alike b) ∧
    Equivalence (fun a b : Tree => a.equal b = true) ∧
    ∀ a a' b b' : Tree, a.unplaced = a'.unplaced → b.unplaced = b'.unplaced → a.equal b = a'.equal b' := by
  refine ⟨equal_eq_alike, ?_, ?_⟩
  · simp only [equal_iff_relabel]
    exact eq_equivalence.comap (relabel Token.canonical)
  · intro a a' b b' ha hb
    rw [← equal_unplaced a b, ha, hb, equal_unplaced]

/-- A name and the same name on the next line, behind a blank, stand for each other in every comparison; one of them is
with the name in other letters. -/
theorem equal_structure_moved :
    ∃ a a' : Tree, a ≠ a' ∧ a.unplaced = a'.unplaced ∧
      (Tree.ofRule .variableName [.leaf ⟨.identifier, "Total", ⟨⟨1, 0, 0⟩, ⟨1, 5, 5⟩⟩, []⟩] default).equal a = true ∧
      ∀ b : Tree, a.equal b = a'.equal b := by
  refine ⟨.ofRule .variableName [.leaf ⟨.identifier, "TOTAL", ⟨⟨1, 0, 0⟩, ⟨1, 5, 5⟩⟩, []⟩] default,
    .ofRule .variableName [.leaf ⟨.identifier, "TOTAL", ⟨⟨2, 1, 9⟩, ⟨2, 6, 14⟩⟩,
      [⟨.whitespace, " ", ⟨⟨2, 0, 8⟩, ⟨2, 1, 9⟩⟩⟩]⟩] default, ?_, rfl, ?_, ?_⟩
  · simp [ofRule]
  · rw [equal_structure.1]
    decide
  · intro b
    exact equal_structure.2.2 _ _ b b rfl rfl

end Tree

end PlsqlLint
