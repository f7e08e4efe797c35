import Mathlib
import PlsqlLint.Grammar.Pattern
import PlsqlLint.Tree.Equality

/-!
# Tokens and trees that are equal

Two tokens have the same text if their terminals and their texts with the case folded (`Token.folded`) are the same, so
this is an equivalence, and no class of tokens tells them apart (`TokenClass.accepts_congr`).

The stack by which trees are compared can be taken apart (`Tree.equalAll_append`), and the order of its pairs does not
count (`Tree.equalAll_iff`).  So two nodes are equal if their rules are the same and their children are equal one by one
(`Tree.equal_node_iff`).
-/

namespace PlsqlLint

/-! ### Tokens -/

namespace Token

/-- The text that counts in a comparison. -/
def folded (t : Token) : List Char :=
  if t.terminal.isCaseless then t.literal.toList.map Char.toUpper else t.literal.toList

variable {a b c d : Token}

theorem sameText_iff : a.sameText b = true ↔ a.terminal = b.terminal ∧ a.folded = b.folded := by
  unfold sameText
  rw [Bool.and_eq_true, beq_iff_eq]
  refine and_congr_right fun h => ?_
  unfold folded
  rw [← h]
  split
  · rw [sameCaseless, beq_iff_eq]
  · rw [beq_iff_eq, String.toList_inj]

private theorem sameText_symm (h : a.sameText b = true) : b.sameText a = true := by
  rw [sameText_iff] at h ⊢
  exact ⟨h.1.symm, h.2.symm⟩

private theorem sameText_trans (h : a.sameText b = true) (h' : b.sameText c = true) : a.sameText c = true := by
  rw [sameText_iff] at h h' ⊢
  exact ⟨h.1.trans h'.1, h.2.trans h'.2⟩

/-- Tokens of the same text are compared alike. -/
theorem sameText_congr (h : a.sameText b = true) (h' : c.sameText d = true) : a.sameText c = b.sameText d := by
  rw [Bool.eq_iff_iff]
  constructor
  · intro hac
    exact sameText_trans (sameText_symm h) (sameText_trans hac h')
  · intro hbd
    exact sameText_trans h (sameText_trans hbd (sameText_symm h'))

private theorem isWord_congr (h : a.sameText b = true) (word : String) : a.isWord word = b.isWord word := by
  obtain ⟨ht, hf⟩ := sameText_iff.1 h
  unfold isWord
  rw [← ht]
  by_cases hi : a.terminal = .identifier
  · -- names are compared without regard to case
    have hu : a.literal.toList.map Char.toUpper = b.literal.toList.map Char.toUpper := by
      simpa [folded, ← ht, hi, Terminal.isCaseless] using hf
    rw [sameCaseless, sameCaseless, hu]
  · have hb : (a.terminal == .identifier) = false := beq_eq_false_iff_ne.2 hi
    rw [hb, Bool.false_and, Bool.false_and]

end Token

/-- Tokens of the same text belong to the same classes. -/
theorem TokenClass.accepts_congr {a b : Token} (h : a.sameText b = true) (k : TokenClass) :
    k.accepts a = k.accepts b := by
  have ht := (Token.sameText_iff.1 h).1
  cases k with
  | oneOf terminals => rw [accepts, accepts, ht]
  | word text => exact Token.isWord_congr h text
  | name => rw [accepts, accepts, ht]
  | member => rw [accepts, accepts, ht]

/-! ### Trees -/

namespace Tree

theorem equalAll_append (stack more : List (Tree × Tree)) :
    equalAll (stack ++ more) = (equalAll stack && equalAll more) := by
  fun_induction equalAll stack with
  | case1 => rfl
  | case2 a b stack ih => rw [List.cons_append, equalAll, ← List.append_assoc, ih, Bool.and_assoc]

private theorem equalAll_cons (a b : Tree) (stack : List (Tree × Tree)) :
    equalAll ((a, b) :: stack) = (a.equal b && equalAll stack) :=
  equalAll_append [(a, b)] stack

theorem equalAll_iff {stack : List (Tree × Tree)} : equalAll stack = true ↔ ∀ p ∈ stack, p.1.equal p.2 = true := by
  induction stack with
  | nil => simp [equalAll]
  | cons p stack ih => rw [equalAll_cons, Bool.and_eq_true, ih, List.forall_mem_cons]

private theorem equalAll_reverse (stack : List (Tree × Tree)) : equalAll stack.reverse = equalAll stack := by
  rw [Bool.eq_iff_iff, equalAll_iff, equalAll_iff]
  simp only [List.mem_reverse]

/-- Trees are equal if their roots agree and their children are equal. -/
theorem equal_eq (a b : Tree) : a.equal b = (a.sameRoot b && equalAll (a.children.zip b.children)) := by
  rw [equal, equalAll, List.append_nil, equalAll_reverse]

theorem equal_leaf (s t : Token) : (Tree.leaf s).equal (.leaf t) = s.sameText t := by
  rw [equal_eq, children, List.zip_nil_left, equalAll, Bool.and_true, sameRoot]

theorem equal_node_iff {r s : Rule} {sp sp' : Span} {as bs : List Tree} :
    (Tree.node r sp as).equal (.node s sp' bs) = true ↔
      r = s ∧ List.Forall₂ (fun a b => a.equal b = true) as bs := by
  rw [equal_eq, Bool.and_eq_true, equalAll_iff, sameRoot, Bool.and_eq_true, beq_iff_eq, beq_iff_eq,
    List.forall₂_iff_zip, and_assoc]
  simp only [children, Prod.forall]

theorem equal_ofRule {r : Rule} {as bs : List Tree} (h : List.Forall₂ (fun a b => a.equal b = true) as bs)
    (p q : Position) : (Tree.ofRule r as p).equal (.ofRule r bs q) = true :=
  equal_node_iff.2 ⟨rfl, h⟩

/-- Equal trees are two leaves of the same text, or two nodes of one rule over equal children. -/
theorem equal_cases {a b : Tree} (h : a.equal b = true) :
    (∃ s t, a = .leaf s ∧ b = .leaf t ∧ s.sameText t = true) ∨
    ∃ r sp sp' as bs, a = .node r sp as ∧ b = .node r sp' bs ∧
      List.Forall₂ (fun a b => a.equal b = true) as bs := by
  cases a with
  | leaf s =>
    cases b with
    | leaf t =>
      rw [equal_leaf] at h
      exact .inl ⟨s, t, rfl, rfl, h⟩
    | node r sp bs => rw [equal_eq] at h; cases h
  | node r sp as =>
    cases b with
    | leaf t => rw [equal_eq] at h; cases h
    | node r' sp' bs =>
      obtain ⟨rfl, hc⟩ := equal_node_iff.1 h
      exact .inr ⟨r, sp, sp', as, bs, rfl, rfl, hc⟩

end Tree

end PlsqlLint
