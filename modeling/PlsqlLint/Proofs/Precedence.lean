import PlsqlLint.Proofs.Lossless

/-!
# Precedence and the shape of nodes

Every node of a parsed tree has the shape that its rule asks for (`parseRule_shaped`): operators stand between operands
that bind tighter, the operands of comparisons are concatenations or bind tighter, and no node is without children.

The proof has two steps.  `Pattern.Yields` says which lists of trees a pattern can yield when only the roots of the
trees are looked at; a call then yields one tree whose root fits the rule (`Reads.yields`).  From what the bodies of the
rules can yield, the shape of each node follows, and with it that of all nodes below (`Reads.wellShaped`).
-/

namespace PlsqlLint

/-! ### Levels of precedence and the shape of a node -/

/-- The level of precedence of an expression, from the loosest to the primaries. -/
def Rule.precedence : Rule → Option Nat
  | .orExpression => some 0
  | .andExpression => some 1
  | .notExpression => some 2
  | .comparisonExpression | .isNullExpression | .likeExpression | .betweenExpression | .inExpression => some 3
  | .concatenationExpression => some 4
  | .additiveExpression => some 5
  | .multiplicativeExpression => some 6
  | .unaryExpression => some 7
  | .exponentiationExpression => some 8
  | .numericLiteral | .characterLiteral | .booleanLiteral | .nullLiteral | .bracketedExpression | .bindVariable
  | .variableName | .memberExpression | .methodCall | .attributeExpression => some 9
  | _ => none

/-- The tokens that join the operands of a node of the rule. -/
def Rule.isOperator (r : Rule) (t : Token) : Bool :=
  match r with
  | .orExpression => t.terminal == .keyword .OR
  | .andExpression => t.terminal == .keyword .AND
  | .concatenationExpression => t.terminal == .concat
  | .additiveExpression => t.terminal == .plus || t.terminal == .minus
  | .multiplicativeExpression => t.terminal == .times || t.terminal == .divide || t.isWord "MOD"
  | .exponentiationExpression => t.terminal == .power
  | _ => false

/-- The tokens that may stand among the operands of a comparison of the rule. -/
def Rule.connectives : Rule → List TokenClass
  | .comparisonExpression =>
    [.oneOf [.keyword .NOT], .word "MEMBER", .word "SUBMULTISET", .oneOf [.keyword .OF]]
  | .isNullExpression => [.oneOf [.keyword .IS], .oneOf [.keyword .NOT], .oneOf [.keyword .NULL]]
  | .likeExpression => [.oneOf [.keyword .NOT], .oneOf [.keyword .LIKE], .word "ESCAPE"]
  | .betweenExpression => [.oneOf [.keyword .NOT], .oneOf [.keyword .BETWEEN], .oneOf [.keyword .AND]]
  | .inExpression => [.oneOf [.keyword .NOT], .oneOf [.keyword .IN]]
  | _ => []

/-- Whether the token may stand there. -/
def Rule.isConnective (r : Rule) (t : Token) : Bool := r.connectives.any (·.accepts t)

namespace Tree

/-- An expression of the level `k` or a tighter one. -/
def binds (k : Nat) (t : Tree) : Bool := (t.rule?.bind Rule.precedence).any (k ≤ ·)

/-- Operands with an operator between any two of them. -/
def alternates (operand operator : Tree → Bool) : List Tree → Bool
  | [] => false
  | [t] => operand t
  | t :: o :: ts => operand t && operator o && alternates operand operator ts

/-- The children of a node in front of the first bracket. -/
def beforeBracket (ts : List Tree) : List Tree := ts.takeWhile (!·.is (.terminal .leftParen))

/-- The children of a comparison without a relational operator: first an operand, and then operands and the tokens that
the rule has among them. -/
def comparisonShape (r : Rule) (ts : List Tree) : Bool :=
  ts.head?.any (binds 4) && ts.all fun t => t.token?.any r.isConnective || t.binds 4

/-- A relational operator stands between two operands, and there is nothing else. -/
def relationShape : List Tree → Bool
  | [a, o, b] => a.binds 4 && o.is (.rule .relationalOperator) && b.binds 4
  | _ => false

/-- The children that a node of the rule may have. -/
def shapeOf (r : Rule) (ts : List Tree) : Bool :=
  match r with
  | .orExpression | .andExpression | .concatenationExpression | .additiveExpression | .multiplicativeExpression
  | .exponentiationExpression =>
    decide (3 ≤ ts.length) &&
      alternates (fun t => r.precedence.any fun k => t.binds (k + 1)) (fun o => o.token?.any r.isOperator) ts
  | .notExpression =>
    match ts with
    | [o, t] => o.is (.terminal (.keyword .NOT)) && t.binds 2
    | _ => false
  | .unaryExpression =>
    match ts with
    | [o, t] => (o.is (.terminal .plus) || o.is (.terminal .minus)) && t.binds 7
    | _ => false
  | .comparisonExpression =>
    if ts.any (·.is (.rule .relationalOperator)) then relationShape ts else comparisonShape r ts
  | .isNullExpression | .likeExpression | .betweenExpression => comparisonShape r ts
  | .inExpression => comparisonShape r (beforeBracket ts) && ts.getLast?.any (·.is (.terminal .rightParen))
  | _ => true

/-- The root has the shape that its rule asks for, and children if it is a node. -/
def shaped : Tree → Bool
  | .leaf _ => true
  | .node r _ ts => !ts.isEmpty && shapeOf r ts

/-- All nodes of the tree have the shape that their rules ask for. -/
def WellShaped (t : Tree) : Prop := ∀ u ∈ t.descendants, u.shaped = true

theorem listing_eq_flatMap (ts : List Tree) : listing ts = ts.flatMap descendants := by
  induction ts with
  | nil => rw [listing]; rfl
  | cons t ts ih => rw [← List.singleton_append, listing_append, ih]; rfl

theorem descendants_node (r : Rule) (sp : Span) (ts : List Tree) :
    (Tree.node r sp ts).descendants = .node r sp ts :: ts.flatMap descendants := by
  rw [descendants, listing, children, List.append_nil, listing_eq_flatMap]

theorem mem_descendants_self (t : Tree) : t ∈ t.descendants := by
  rw [descendants, listing]
  exact List.mem_cons_self

theorem mem_descendants_trans {t u v : Tree} (hu : u ∈ t.descendants) (hv : v ∈ u.descendants) :
    v ∈ t.descendants := by
  induction t with
  | leaf token =>
    rw [descendants_leaf] at hu
    rwa [List.mem_singleton.1 hu] at hv
  | node r sp ts ih =>
    rw [descendants_node] at hu
    rcases List.mem_cons.1 hu with rfl | hu
    · exact hv
    · obtain ⟨t, ht, hut⟩ := List.mem_flatMap.1 hu
      rw [descendants_node]
      exact List.mem_cons_of_mem _ (List.mem_flatMap.2 ⟨t, ht, ih t ht hut⟩)

theorem mem_descendants_of_mem_children {t u v : Tree} (hu : u ∈ t.descendants) (hv : v ∈ u.children) :
    v ∈ t.descendants := by
  refine mem_descendants_trans hu ?_
  cases u with
  | leaf token => cases hv
  | node rule span ts =>
    rw [descendants_node]
    exact List.mem_cons_of_mem _ (List.mem_flatMap.2 ⟨v, hv, v.mem_descendants_self⟩)

private theorem wellShaped_leaf (t : Token) : (Tree.leaf t).WellShaped := by
  intro u hu
  rw [descendants_leaf] at hu
  rw [List.mem_singleton.1 hu]
  rfl

private theorem wellShaped_ofRule {r : Rule} {ts : List Tree} {p : Position} (hr : (ofRule r ts p).shaped = true)
    (hts : ∀ t ∈ ts, t.WellShaped) : (ofRule r ts p).WellShaped := by
  intro u hu
  rw [ofRule, descendants_node] at hu
  rcases List.mem_cons.1 hu with rfl | hu
  · exact hr
  · obtain ⟨t, ht, hu⟩ := List.mem_flatMap.1 hu
    exact hts t ht u hu

private theorem binds_of_le {j k : Nat} {t : Tree} (h : t.binds k = true) (hjk : j ≤ k) : t.binds j = true := by
  unfold binds at h ⊢
  rw [Option.any_eq_true] at h ⊢
  obtain ⟨i, hi, hk⟩ := h
  refine ⟨i, hi, ?_⟩
  rw [decide_eq_true_eq] at hk ⊢
  omega

end Tree

/-! ### What patterns can yield -/

/-- A tree that a call of the rule can yield, as far as its root shows: a node of the rule or, if the rule collapses, an
expression of its level or a tighter one. -/
def Tree.fits (r : Rule) (t : Tree) : Bool :=
  if r.collapses then r.precedence.any fun k => t.binds k else t.rule? == some r

/-- The lists of trees that a pattern can yield onto the trees in front, as far as their roots show. -/
def Pattern.Yields : Pattern → List Tree → List Tree → Prop
  | .empty, _, xs | .room _, _, xs => xs = []
  | .take k _, _, xs => ∃ t, k.accepts t = true ∧ xs = [.leaf t]
  | .advance, _, xs => ∃ t, xs = [.leaf t]
  | .fail, _, _ | .reject _, _, _ => False
  | .seq a b, l, xs => ∃ ys zs, a.Yields l ys ∧ b.Yields l zs ∧ xs = ys ++ zs
  | .orElse a b, l, xs | .ifNext _ a b, l, xs => a.Yields l xs ∨ b.Yields l xs
  | .many a, l, xs => ∃ yss : List (List Tree), (∀ ys ∈ yss, a.Yields l ys) ∧ xs = yss.flatten
  | .within _ a, l, xs | .only _ _ a, l, xs => a.Yields l xs
  | .node r a, l, xs => ∃ ys p, a.Yields l ys ∧ xs = [.ofRule r ys p]
  | .collapse r a, l, xs => ∃ ys p, a.Yields l ys ∧ xs = [.collapsed r ys p]
  | .call r, _, xs => ∃ t : Tree, t.fits r = true ∧ xs = [t]
  | .last a, l, xs => ∃ ys, a.Yields l ys ∧ xs = ys.getLast?.toList
  | .onto a b, l, xs => ∃ ys, a.Yields l ys ∧ b.Yields ys xs
  | .left, l, xs => xs = l
  | .chain a _ link, l, xs => ∃ ys, a.Yields l ys ∧ Relation.ReflTransGen (fun us vs => link.Yields us vs) ys xs
  | .closingLabel, _, xs => xs = [] ∨ ∃ t, xs = [.leaf t]

/-- The same for a task. -/
def Task.Yields : Task → List Tree → List Tree → Prop
  | .pattern p, l, xs => p.Yields l xs
  | .links _ link _, l, xs => Relation.ReflTransGen link.Yields l xs

/-! ### Operands and operators -/

namespace Pattern

open PlsqlLint.Tree (binds alternates)

private theorem binds_of_fits {r : Rule} {t : Tree} {k : Nat} (h : t.fits r = true) (hk : r.precedence = some k) :
    t.binds k = true := by
  unfold Tree.fits at h
  split at h
  · simpa [hk] using h
  · simp only [beq_iff_eq] at h
    simp [binds, h, hk]

/-- The trees of a pattern that yields one tree at a time, each with a property. -/
def YieldsOne (p : Pattern) (l : List Tree) (P : Tree → Bool) : Prop :=
  ∀ xs, p.Yields l xs → ∃ t, xs = [t] ∧ P t = true

private theorem yieldsOne_call {r : Rule} {k : Nat} (hk : r.precedence = some k) (l : List Tree) :
    YieldsOne (.call r) l (binds k) := by
  rintro xs ⟨t, ht, rfl⟩
  exact ⟨t, rfl, binds_of_fits ht hk⟩

private theorem yieldsOne_ifNext {ahead : Lookahead} {a b : Pattern} {l : List Tree} {P : Tree → Bool}
    (ha : YieldsOne a l P) (hb : YieldsOne b l P) : YieldsOne (.ifNext ahead a b) l P := by
  intro xs h
  rcases h with h | h
  · exact ha xs h
  · exact hb xs h

theorem YieldsOne.mono {p : Pattern} {l : List Tree} {P Q : Tree → Bool} (h : YieldsOne p l P)
    (hPQ : ∀ t, P t = true → Q t = true) : YieldsOne p l Q := by
  intro xs hx
  obtain ⟨t, rfl, ht⟩ := h xs hx
  exact ⟨t, rfl, hPQ t ht⟩

private theorem yieldsOne_take {k : TokenClass} {e : String} {l : List Tree} {Q : Token → Bool}
    (h : ∀ t, k.accepts t = true → Q t = true) : YieldsOne (.take k e) l (fun o => o.token?.any Q) := by
  rintro xs ⟨t, ht, rfl⟩
  exact ⟨.leaf t, rfl, by simpa [Tree.token?] using h t ht⟩

/-- Operands with operators between them alternate. -/
private theorem alternates_of_separated {operand operator : Pattern} {l xs : List Tree} {P Q : Tree → Bool}
    (hp : YieldsOne operand l P) (hq : YieldsOne operator l Q) (h : (separated operand operator).Yields l xs) :
    alternates P Q xs = true := by
  obtain ⟨ys, zs, hy, ⟨yss, hyss, rfl⟩, rfl⟩ := h
  obtain ⟨t, rfl, ht⟩ := hp ys hy
  induction yss generalizing t with
  | nil => simpa [alternates] using ht
  | cons us yss ih =>
    obtain ⟨os, vs, ho, hv, rfl⟩ := hyss us (by simp)
    obtain ⟨o, rfl, ho'⟩ := hq os ho
    obtain ⟨v, rfl, hv'⟩ := hp vs hv
    have hrest := ih (fun ys h => hyss ys (by simp [h])) v hv' hv
    simp only [List.flatten_cons, List.cons_append, List.nil_append] at hrest ⊢
    simp [alternates, ht, ho', hrest]

/-! ### References and comparisons -/

private theorem yields_link {t : Tree} {xs : List Tree} (h : link.Yields [t] xs) :
    ∃ r ys p, xs = [.ofRule r ys p] ∧ ys ≠ [] ∧
      (r = .memberExpression ∨ r = .attributeExpression ∨ r = .methodCall) := by
  rcases h with h | h | h
  · obtain ⟨ys, p, ⟨us, vs, rfl, _, rfl⟩, rfl⟩ := h
    exact ⟨_, _, p, rfl, by simp, by simp⟩
  · obtain ⟨ys, p, ⟨us, vs, rfl, _, rfl⟩, rfl⟩ := h
    exact ⟨_, _, p, rfl, by simp, by simp⟩
  · obtain ⟨ys, p, ⟨us, vs, rfl, _, rfl⟩, rfl⟩ := h
    exact ⟨_, _, p, rfl, by simp, by simp⟩

private theorem binds_ofRule {r : Rule} {k : Nat} (hk : r.precedence = some k) (ys : List Tree) (p : Position) :
    (Tree.ofRule r ys p).binds k = true := by
  simp [binds, Tree.ofRule, Tree.rule?, hk]

/-- Whatever links have been read, there is one tree, and it is a primary. -/
private theorem one_primary_of_links {xs ys : List Tree} (h : Relation.ReflTransGen link.Yields xs ys)
    (hx : ∃ t : Tree, xs = [t] ∧ t.binds 9 = true) : ∃ t : Tree, ys = [t] ∧ t.binds 9 = true := by
  induction h with
  | refl => exact hx
  | tail _ hl ih =>
    obtain ⟨t, rfl, _⟩ := ih
    obtain ⟨r, ys, p, rfl, _, hr⟩ := yields_link hl
    refine ⟨_, rfl, ?_⟩
    rcases hr with rfl | rfl | rfl
    · exact binds_ofRule rfl ys p
    · exact binds_ofRule rfl ys p
    · exact binds_ofRule rfl ys p

private theorem yieldsOne_variable (l : List Tree) :
    YieldsOne (.ifNext [[.oneOf [.colon]]] (.call .bindVariable) (.call .variableName)) l (binds 9) :=
  yieldsOne_ifNext (yieldsOne_call rfl l) (yieldsOne_call rfl l)

private theorem yieldsOne_reference (l : List Tree) : YieldsOne reference l (binds 9) := by
  rintro xs ⟨ys, hy, hl⟩
  exact one_primary_of_links hl (yieldsOne_variable l ys hy)

private theorem yieldsOne_literal (l : List Tree) : YieldsOne literal l (binds 9) := by
  refine yieldsOne_ifNext (yieldsOne_call rfl l) ?_
  refine yieldsOne_ifNext (yieldsOne_call rfl l) ?_
  refine yieldsOne_ifNext (yieldsOne_call rfl l) ?_
  refine yieldsOne_ifNext (yieldsOne_call rfl l) ?_
  intro xs h
  exact h.elim

private theorem yieldsOne_primary (l : List Tree) : YieldsOne primary l (binds 9) :=
  yieldsOne_ifNext (yieldsOne_literal l) (yieldsOne_ifNext (yieldsOne_call rfl l) (yieldsOne_reference l))

private theorem yieldsOne_signed (l : List Tree) : YieldsOne signed l (binds 7) :=
  yieldsOne_ifNext (yieldsOne_call rfl l)
    ((yieldsOne_call (r := .exponentiationExpression) rfl l).mono fun _ h => Tree.binds_of_le h (by omega))

theorem yieldsOne_operand (l : List Tree) : YieldsOne operand l (binds 4) := yieldsOne_call rfl l

/-- All trees that a pattern yields have a property. -/
def YieldsAll (p : Pattern) (l : List Tree) (P : Tree → Bool) : Prop :=
  ∀ xs, p.Yields l xs → xs.all P = true

private theorem YieldsOne.all {p : Pattern} {l : List Tree} {P : Tree → Bool} (h : YieldsOne p l P) :
    YieldsAll p l P := by
  intro xs hx
  obtain ⟨t, rfl, ht⟩ := h xs hx
  simp [ht]

theorem YieldsAll.mono {p : Pattern} {l : List Tree} {P Q : Tree → Bool} (h : YieldsAll p l P)
    (hPQ : ∀ t, P t = true → Q t = true) : YieldsAll p l Q := by
  intro xs hx
  rw [List.all_eq_true]
  intro t ht
  exact hPQ t (List.all_eq_true.1 (h xs hx) t ht)

section

variable {a b : Pattern} {l : List Tree} {P : Tree → Bool}

private theorem yieldsAll_empty : YieldsAll .empty l P := by
  rintro xs rfl
  rfl

private theorem yieldsAll_seq (ha : YieldsAll a l P) (hb : YieldsAll b l P) : YieldsAll (.seq a b) l P := by
  rintro xs ⟨ys, zs, hy, hz, rfl⟩
  rw [List.all_append, ha ys hy, hb zs hz]
  rfl

private theorem yieldsAll_ifNext {ahead : Lookahead} (ha : YieldsAll a l P) (hb : YieldsAll b l P) :
    YieldsAll (.ifNext ahead a b) l P := by
  rintro xs (h | h)
  · exact ha xs h
  · exact hb xs h

private theorem yieldsAll_orElse (ha : YieldsAll a l P) (hb : YieldsAll b l P) : YieldsAll (.orElse a b) l P := by
  rintro xs (h | h)
  · exact ha xs h
  · exact hb xs h

end

/-- A token of a comparison of the rule, or an operand. -/
def inComparison (r : Rule) (t : Tree) : Bool := t.token?.any r.isConnective || t.binds 4

section

variable {r : Rule} {k : TokenClass} {e : String} {l : List Tree}

private theorem yieldsAll_token (hk : k ∈ r.connectives) : YieldsAll (.take k e) l (inComparison r) := by
  rintro xs ⟨t, ht, rfl⟩
  have hjoins : r.isConnective t = true := List.any_eq_true.2 ⟨k, hk, ht⟩
  simp [inComparison, Tree.token?, hjoins]

private theorem yieldsAll_maybe (hk : k ∈ r.connectives) : YieldsAll (maybe k e) l (inComparison r) :=
  yieldsAll_ifNext (yieldsAll_token hk) yieldsAll_empty

private theorem yieldsAll_operand (r : Rule) (l : List Tree) : YieldsAll operand l (inComparison r) :=
  (yieldsOne_operand l).all.mono fun t h => by simp [inComparison, h]

theorem yieldsAll_collectionTail (l : List Tree) : YieldsAll collectionTail l (inComparison .comparisonExpression) :=
  yieldsAll_seq (yieldsAll_maybe (by simp [Rule.connectives])) <|
  yieldsAll_seq (yieldsAll_ifNext (yieldsAll_token (by simp [Rule.connectives]))
    (yieldsAll_token (by simp [Rule.connectives]))) <|
  yieldsAll_seq (yieldsAll_maybe (by simp [Rule.connectives])) (yieldsAll_operand _ l)

private theorem yieldsAll_isNullTail (l : List Tree) : YieldsAll isNullTail l (inComparison .isNullExpression) :=
  yieldsAll_seq (yieldsAll_token (by simp [Rule.connectives])) <|
  yieldsAll_seq (yieldsAll_maybe (by simp [Rule.connectives])) (yieldsAll_token (by simp [Rule.connectives]))

private theorem yieldsAll_likeTail (l : List Tree) : YieldsAll likeTail l (inComparison .likeExpression) :=
  yieldsAll_seq (yieldsAll_maybe (by simp [Rule.connectives])) <|
  yieldsAll_seq (yieldsAll_token (by simp [Rule.connectives])) <|
  yieldsAll_seq (yieldsAll_operand _ l) <|
  yieldsAll_orElse (yieldsAll_seq (yieldsAll_token (by simp [Rule.connectives])) (yieldsAll_operand _ l))
    yieldsAll_empty

private theorem yieldsAll_betweenTail (l : List Tree) : YieldsAll betweenTail l (inComparison .betweenExpression) :=
  yieldsAll_seq (yieldsAll_maybe (by simp [Rule.connectives])) <|
  yieldsAll_seq (yieldsAll_token (by simp [Rule.connectives])) <|
  yieldsAll_seq (yieldsAll_operand _ l) <|
  yieldsAll_seq (yieldsAll_token (by simp [Rule.connectives])) (yieldsAll_operand _ l)

/-- A token or an operand is not a relational operator. -/
theorem not_relational {t : Tree} (h : inComparison r t = true) : t.is (.rule .relationalOperator) = false := by
  cases t with
  | leaf t => rfl
  | node rule sp ts =>
    cases hr : (Tree.node rule sp ts).is (.rule .relationalOperator) with
    | false => rfl
    | true =>
      simp only [Tree.is, Tree.symbol, beq_iff_eq, Symbol.rule.injEq] at hr
      subst hr
      cases h

theorem not_relational_of_binds {t : Tree} (h : t.binds 4 = true) : t.is (.rule .relationalOperator) = false :=
  not_relational (r := .comparisonExpression) (by simp [inComparison, h])

private theorem comparisonShape_of_all {a : Tree} {ys : List Tree} (ha : a.binds 4 = true)
    (hy : ys.all (inComparison r) = true) : Tree.comparisonShape r (a :: ys) = true := by
  have hys : ys.all (fun t => t.token?.any r.isConnective || t.binds 4) = true := hy
  simp [Tree.comparisonShape, ha, hys]

private theorem shapeOf_comparison_of_all {a : Tree} {ys : List Tree} (ha : a.binds 4 = true)
    (hy : ys.all (inComparison .comparisonExpression) = true) :
    Tree.shapeOf .comparisonExpression (a :: ys) = true := by
  have hnone : (a :: ys).any (·.is (.rule .relationalOperator)) = false := by
    rw [List.any_eq_false]
    intro t ht
    rcases List.mem_cons.1 ht with rfl | ht
    · rw [not_relational_of_binds ha]
      simp
    · rw [not_relational (List.all_eq_true.1 hy t ht)]
      simp
  rw [Tree.shapeOf, hnone]
  exact comparisonShape_of_all ha hy

end

private theorem not_bracket_of_binds {k : Nat} {t : Tree} (h : t.binds k = true) :
    (!t.is (.terminal .leftParen)) = true := by
  cases t with
  | leaf t => cases h
  | node r sp ts => rfl

private theorem not_bracket_of_accepts {k : Keyword} {t : Token}
    (h : (TokenClass.oneOf [.keyword k]).accepts t = true) :
    (!(Tree.leaf t).is (.terminal .leftParen)) = true := by
  simp only [TokenClass.accepts, List.contains_cons, List.contains_nil, Bool.or_false, beq_iff_eq] at h
  simp [Tree.is, Tree.symbol, h]

/-- The node that a tail forms with the operand in front of it has the shape of a comparison. -/
private theorem shapeOf_comparison {r : Rule} {tail : Pattern} (hm : (r, tail) ∈ comparisonTails) {a : Tree}
    (ha : a.binds 4 = true) {ys : List Tree} (hy : tail.Yields [a] ys) : Tree.shapeOf r (a :: ys) = true := by
  simp only [comparisonTails, List.mem_cons, Prod.mk.injEq, List.not_mem_nil, or_false] at hm
  rcases hm with ⟨rfl, rfl⟩ | ⟨rfl, rfl⟩ | ⟨rfl, rfl⟩ | ⟨rfl, rfl⟩ | ⟨rfl, rfl⟩ | ⟨rfl, rfl⟩
  · obtain ⟨us, vs, ⟨o, ho, rfl⟩, hv, rfl⟩ := hy
    obtain ⟨b, rfl, hb⟩ := yieldsOne_operand _ _ hv
    have ho' : o.is (.rule .relationalOperator) = true := by
      cases o with
      | leaf t => cases ho
      | node r sp ts => simpa [Tree.fits, Rule.collapses, Tree.rule?, Tree.is, Tree.symbol] using ho
    simp [Tree.shapeOf, Tree.relationShape, ha, hb, ho']
  · exact shapeOf_comparison_of_all ha (yieldsAll_collectionTail _ _ hy)
  · exact comparisonShape_of_all ha (yieldsAll_isNullTail _ _ hy)
  · exact comparisonShape_of_all ha (yieldsAll_likeTail _ _ hy)
  · exact comparisonShape_of_all ha (yieldsAll_betweenTail _ _ hy)
  · obtain ⟨us, vs, hu, ⟨ws, zs, hw, ⟨ps, qs, ⟨p, hp, rfl⟩, ⟨is, cs, _, ⟨c, hc, rfl⟩, rfl⟩, rfl⟩, rfl⟩, rfl⟩ := hy
    -- in front of the bracket there are the operand, `NOT` or nothing, and `IN`
    have hcut (qs : List Tree) :
        Tree.beforeBracket (a :: (us ++ (ws ++ ([.leaf p] ++ qs)))) = a :: (us ++ ws) := by
      have hpos : ∀ t ∈ a :: (us ++ ws), (!t.is (.terminal .leftParen)) = true := by
        intro t ht
        rcases List.mem_cons.1 ht with rfl | ht
        · exact not_bracket_of_binds ha
        · rcases List.mem_append.1 ht with ht | ht
          · rcases hu with ⟨u, hu, rfl⟩ | rfl
            · rw [List.mem_singleton.1 ht]; exact not_bracket_of_accepts hu
            · cases ht
          · obtain ⟨w, hw, rfl⟩ := hw
            rw [List.mem_singleton.1 ht]; exact not_bracket_of_accepts hw
      have hbracket : ((Tree.leaf p).is (.terminal .leftParen)) = true := by
        simpa [TokenClass.accepts, Tree.is, Tree.symbol] using hp
      have hsplit : a :: (us ++ (ws ++ ([.leaf p] ++ qs))) = (a :: (us ++ ws)) ++ .leaf p :: qs := by simp
      rw [Tree.beforeBracket, hsplit, List.takeWhile_append_of_pos hpos,
        List.takeWhile_cons_of_neg (by simp [hbracket]), List.append_nil]
    have hinner : Tree.comparisonShape .inExpression (a :: (us ++ ws)) = true := by
      refine comparisonShape_of_all ha ?_
      rw [List.all_append, yieldsAll_maybe (by simp [Rule.connectives]) _ hu,
        yieldsAll_token (by simp [Rule.connectives]) _ hw]
      rfl
    have hclosed : (Tree.leaf c).is (.terminal .rightParen) = true := by
      simpa [TokenClass.accepts, Tree.is, Tree.symbol] using hc
    have hlast : (a :: (us ++ (ws ++ ([.leaf p] ++ (is ++ [Tree.leaf c]))))).getLast? = some (.leaf c) := by
      simp [List.getLast?_cons, List.getLast?_append]
    rw [Tree.shapeOf, hcut, hinner, hlast, Option.any_some, hclosed]
    rfl

private theorem yields_comparison {l xs : List Tree} (h : comparison.Yields l xs) :
    ∃ a : Tree, a.binds 4 = true ∧ (xs = [a] ∨
      ∃ r tail ys p, (r, tail) ∈ comparisonTails ∧ tail.Yields [a] ys ∧ xs = [.ofRule r (a :: ys) p]) := by
  obtain ⟨as, has, h⟩ := h
  obtain ⟨a, rfl, ha⟩ := yieldsOne_operand l as has
  refine ⟨a, ha, ?_⟩
  have hwith : ∀ r tail, (comparisonWith r tail).Yields [a] xs →
      ∃ ys p, tail.Yields [a] ys ∧ xs = [.ofRule r (a :: ys) p] := by
    rintro r tail ⟨zs, p, ⟨us, ys, rfl, hy, rfl⟩, rfl⟩
    exact ⟨ys, p, hy, rfl⟩
  rcases h with h | h | h | h | h | h | h | h
  · obtain ⟨ys, p, hy, hx⟩ := hwith _ _ h
    exact .inr ⟨_, relationalTail, ys, p, by simp [comparisonTails], hy, hx⟩
  · obtain ⟨ys, p, hy, hx⟩ := hwith _ _ h
    exact .inr ⟨_, collectionTail, ys, p, by simp [comparisonTails], hy, hx⟩
  · obtain ⟨ys, p, hy, hx⟩ := hwith _ _ h
    exact .inr ⟨_, isNullTail, ys, p, by simp [comparisonTails], hy, hx⟩
  · obtain ⟨ys, p, hy, hx⟩ := hwith _ _ h
    exact .inr ⟨_, likeTail, ys, p, by simp [comparisonTails], hy, hx⟩
  · obtain ⟨ys, p, hy, hx⟩ := hwith _ _ h
    exact .inr ⟨_, betweenTail, ys, p, by simp [comparisonTails], hy, hx⟩
  · obtain ⟨ys, p, hy, hx⟩ := hwith _ _ h
    exact .inr ⟨_, inTail, ys, p, by simp [comparisonTails], hy, hx⟩
  · exact .inl h
  · exact h.elim

private theorem yieldsOne_comparison (l : List Tree) : YieldsOne comparison l (binds 3) := by
  intro xs h
  obtain ⟨a, ha, rfl | ⟨r, tail, ys, p, hm, _, rfl⟩⟩ := yields_comparison h
  · exact ⟨a, rfl, Tree.binds_of_le ha (by omega)⟩
  · refine ⟨_, rfl, binds_ofRule ?_ _ p⟩
    simp only [comparisonTails, List.mem_cons, Prod.mk.injEq, List.not_mem_nil, or_false] at hm
    rcases hm with ⟨rfl, _⟩ | ⟨rfl, _⟩ | ⟨rfl, _⟩ | ⟨rfl, _⟩ | ⟨rfl, _⟩ | ⟨rfl, _⟩ <;> rfl

private theorem yieldsOne_negation (l : List Tree) : YieldsOne negation l (binds 2) :=
  yieldsOne_ifNext (yieldsOne_call rfl l)
    ((yieldsOne_comparison l).mono fun _ h => Tree.binds_of_le h (by omega))

/-! ### What the rules yield -/

end Pattern

open Pattern in
/-- On the levels with binary operators, tighter operands alternate with operators. -/
theorem Rule.alternates_body {r : Rule} (hr : r.collapses = true) {xs : List Tree} (h : r.body.Yields [] xs) :
    Tree.alternates (fun t => r.precedence.any fun k => t.binds (k + 1)) (fun o => o.token?.any r.isOperator) xs =
      true := by
  cases r with
  | orExpression =>
    refine alternates_of_separated (yieldsOne_call rfl _) (yieldsOne_take ?_) h
    intro t ht
    simpa [TokenClass.accepts, isOperator] using ht
  | andExpression =>
    refine alternates_of_separated (yieldsOne_negation _) (yieldsOne_take ?_) h
    intro t ht
    simpa [TokenClass.accepts, isOperator] using ht
  | concatenationExpression =>
    refine alternates_of_separated (yieldsOne_call rfl _) (yieldsOne_take ?_) h
    intro t ht
    simpa [TokenClass.accepts, isOperator] using ht
  | additiveExpression =>
    refine alternates_of_separated (yieldsOne_call rfl _) (yieldsOne_take ?_) h
    intro t ht
    simpa [TokenClass.accepts, isOperator] using ht
  | multiplicativeExpression =>
    refine alternates_of_separated (yieldsOne_signed _) (yieldsOne_ifNext (yieldsOne_take ?_) (yieldsOne_take ?_)) h
    · intro t ht
      simp only [TokenClass.accepts] at ht
      simp [isOperator, ht]
    · intro t ht
      simp only [TokenClass.accepts, List.contains_cons, List.contains_nil, Bool.or_false] at ht
      simp [isOperator, ht]
  | exponentiationExpression =>
    refine alternates_of_separated (yieldsOne_primary _) (yieldsOne_take ?_) h
    intro t ht
    simpa [TokenClass.accepts, isOperator] using ht
  | _ => cases hr

private theorem Rule.precedence_of_collapses {r : Rule} (hr : r.collapses = true) : ∃ k, r.precedence = some k := by
  cases r <;> first | exact ⟨_, rfl⟩ | cases hr

/-- What a call yields fits the rule. -/
theorem Rule.fits_build {r : Rule} {xs : List Tree} (h : r.body.Yields [] xs) (p : Position) :
    (r.build xs p).fits r = true := by
  unfold Rule.build Tree.fits
  split
  · rename_i hc
    have halt := alternates_body hc h
    obtain ⟨k, hk⟩ := precedence_of_collapses hc
    simp only [hk, Option.any_some] at halt ⊢
    unfold Tree.collapsed
    split
    · exact Tree.binds_of_le halt (by omega)
    · exact Pattern.binds_ofRule hk _ _
  · simp [Tree.ofRule, Tree.rule?]

/-- What is read can be yielded. -/
theorem Reads.yields {n : Nat} {task : Task} {l : List Tree} {ts : List Token} {o : Reading}
    (h : Reads n task l ts o) {xs : List Tree} {us : List Token} (ho : o = some (xs, us)) : task.Yields l xs := by
  induction h generalizing xs us with
  | empty => cases ho; rfl
  | @take n l k e t ts vs ht _ => cases ho; exact ⟨t, ht, rfl⟩
  | @advance n l t ts vs _ => cases ho; exact ⟨t, rfl⟩
  | room _ => cases ho; rfl
  | seq _ _ hz iha ihb => cases ho; exact ⟨_, _, iha rfl, ihb rfl, hz⟩
  | orFirst _ iha => exact .inl (iha ho)
  | orSecond _ _ _ ihb => exact .inr (ihb ho)
  | manyStop _ _ => cases ho; exact ⟨[], by simp, rfl⟩
  | manyMore _ _ _ hz iha ihm =>
    cases ho
    obtain ⟨yss, hyss, rfl⟩ := ihm rfl
    refine ⟨_ :: yss, ?_, hz⟩
    intro ys hy
    rcases List.mem_cons.1 hy with rfl | hy
    · exact iha rfl
    · exact hyss ys hy
  | @manyOnce n a l ts ys vs _ _ iha =>
    cases ho
    refine ⟨[ys], ?_, by simp⟩
    intro zs hz
    rw [List.mem_singleton.1 hz]
    exact iha rfl
  | nextYes _ _ iha => exact .inl (iha ho)
  | nextNo _ _ ihb => exact .inr (ihb ho)
  | within _ iha => exact iha ho
  | node _ hz iha => cases ho; exact ⟨_, _, iha rfl, hz⟩
  | collapse _ hz iha => cases ho; exact ⟨_, _, iha rfl, hz⟩
  | call _ hz iha => cases ho; exact ⟨_, Rule.fits_build (iha rfl) _, hz⟩
  | only _ _ iha => exact iha ho
  | last _ hz iha => cases ho; exact ⟨_, iha rfl, hz⟩
  | onto _ _ iha ihb => exact ⟨_, iha rfl, ihb ho⟩
  | left => cases ho; rfl
  | chain _ _ iha ihl => exact ⟨_, iha rfl, ihl ho⟩
  | @label n l t ts vs name _ _ _ _ => cases ho; exact .inr ⟨t, rfl⟩
  | labelAbsent _ => cases ho; exact .inl rfl
  | linksStop _ => cases ho; exact .refl
  | linksMore _ _ _ _ _ iha ihm => exact .head (iha rfl) (ihm ho)
  | linksOnce _ _ _ _ iha => exact .single (iha ho)
  | _ => cases ho

/-! ### Nodes of the right shape -/

/-- The nodes that the pattern itself builds, onto trees with the property `L`, have the right shape. -/
def Pattern.Proper (L : List Tree → Prop) : Pattern → Prop
  | .node r a | .collapse r a =>
    a.Proper L ∧ ∀ l ys p, L l → a.Yields l ys → (Tree.ofRule r ys p).shaped = true
  | .seq a b | .orElse a b | .ifNext _ a b => a.Proper L ∧ b.Proper L
  | .many a | .within _ a | .only _ _ a | .last a => a.Proper L
  | .onto a b => a.Proper L ∧ b.Proper (fun ys => ∃ l, L l ∧ a.Yields l ys)
  | .chain a _ link =>
    a.Proper L ∧ link.Proper (fun xs => ∃ l ys, L l ∧ a.Yields l ys ∧ Relation.ReflTransGen link.Yields ys xs)
  | .empty | .take _ _ | .advance | .fail | .reject _ | .room _ | .call _ | .left | .closingLabel => True

namespace Pattern

private theorem proper_link {L : List Tree → Prop} (hL : ∀ xs, L xs → ∃ t, xs = [t]) : link.Proper L := by
  have hnode : ∀ (r : Rule) (q : Pattern), (r = .memberExpression ∨ r = .attributeExpression ∨ r = .methodCall) →
      ∀ l ys p, L l → (Pattern.seq .left q).Yields l ys → (Tree.ofRule r ys p).shaped = true := by
    rintro r q hr l ys p hl ⟨us, vs, rfl, _, rfl⟩
    obtain ⟨t, rfl⟩ := hL us hl
    rcases hr with rfl | rfl | rfl <;> rfl
  simp only [link, Proper, sequence, terminal, true_and, and_true]
  exact ⟨hnode _ _ (by simp), hnode _ _ (by simp), hnode _ _ (by simp)⟩

@[simp] theorem proper_reference (L : List Tree → Prop) : reference.Proper L := by
  refine ⟨⟨trivial, trivial⟩, proper_link ?_⟩
  rintro xs ⟨l, ys, _, hy, hl⟩
  obtain ⟨t, rfl, _⟩ := one_primary_of_links hl (yieldsOne_variable l ys hy)
  exact ⟨t, rfl⟩

private theorem proper_comparisonWith {L : List Tree → Prop} (hL : ∀ xs, L xs → ∃ a : Tree, xs = [a] ∧ a.binds 4 = true)
    {r : Rule} {tail : Pattern} (hm : (r, tail) ∈ comparisonTails) (htail : tail.Proper L) :
    (comparisonWith r tail).Proper L := by
  refine ⟨⟨trivial, htail⟩, ?_⟩
  rintro l ys p hl ⟨us, vs, rfl, hv, rfl⟩
  obtain ⟨a, rfl, ha⟩ := hL us hl
  simpa [Tree.ofRule, Tree.shaped] using shapeOf_comparison hm ha hv

@[simp] theorem proper_comparison (L : List Tree → Prop) : comparison.Proper L := by
  have hL : ∀ xs, (∃ l, L l ∧ operand.Yields l xs) → ∃ a : Tree, xs = [a] ∧ a.binds 4 = true := by
    rintro xs ⟨l, _, hx⟩
    exact yieldsOne_operand l xs hx
  refine ⟨trivial, ?_⟩
  refine ⟨proper_comparisonWith hL (by simp [comparisonTails]) ?_, ?_⟩
  · simp [relationalTail, sequence, Proper, operand]
  refine ⟨proper_comparisonWith hL (by simp [comparisonTails]) ?_, ?_⟩
  · simp [collectionTail, sequence, Proper, operand, maybeKeyword, maybe, whenNext, word]
  refine ⟨proper_comparisonWith hL (by simp [comparisonTails]) ?_, ?_⟩
  · simp [isNullTail, sequence, Proper, maybeKeyword, maybe, whenNext, keyword, terminal]
  refine ⟨proper_comparisonWith hL (by simp [comparisonTails]) ?_, ?_⟩
  · simp [likeTail, sequence, Proper, operand, maybeKeyword, maybe, whenNext, keyword, terminal, opt, word]
  refine ⟨proper_comparisonWith hL (by simp [comparisonTails]) ?_, ?_⟩
  · simp [betweenTail, sequence, Proper, operand, maybeKeyword, maybe, whenNext, keyword, terminal]
  refine ⟨proper_comparisonWith hL (by simp [comparisonTails]) ?_, ?_⟩
  · simp [inTail, sequence, Proper, maybeKeyword, maybe, whenNext, keyword, terminal, bracketed, queryOr, commaList,
      separated, expression]
  exact ⟨trivial, trivial⟩

end Pattern

open Pattern in
private theorem Rule.proper_body (r : Rule) : r.body.Proper (· = []) := by
  cases r <;> simp [Rule.body, Proper, Pattern.sequence, choice, opt, whenNext, terminal, keyword, word, identifier,
    maybe, maybeKeyword, maybeWord, maybeIdentifier, clause, separated, commaList, bracketed, expression, queryOr,
    negation, literal, primary, signed, statement, statementRules, statements, declaration, declarationRules,
    maybeLabel, loop, loopRange, exitTail, workTail, dottedName, maybeEither]

/-- The pattern yields at least one tree. -/
def Pattern.fills : Pattern → Bool
  | .take _ _ | .advance | .fail | .reject _ | .node _ _ | .collapse _ _ | .call _ => true
  | .seq a b => a.fills || b.fills
  | .orElse a b | .ifNext _ a b => a.fills && b.fills
  | .within _ a | .only _ _ a => a.fills
  | .onto _ b => b.fills
  | .empty | .room _ | .many _ | .last _ | .left | .chain _ _ _ | .closingLabel => false

private theorem Pattern.ne_nil_of_fills {p : Pattern} {l xs : List Tree} (hp : p.fills = true) (h : p.Yields l xs) :
    xs ≠ [] := by
  induction p generalizing l xs with
  | take k e => obtain ⟨t, _, rfl⟩ := h; simp
  | advance => obtain ⟨t, rfl⟩ := h; simp
  | fail => exact h.elim
  | reject e => exact h.elim
  | node r a _ => obtain ⟨ys, p, _, rfl⟩ := h; simp
  | collapse r a _ => obtain ⟨ys, p, _, rfl⟩ := h; simp
  | call r => obtain ⟨t, _, rfl⟩ := h; simp
  | seq a b iha ihb =>
    obtain ⟨ys, zs, hy, hz, rfl⟩ := h
    rw [fills, Bool.or_eq_true] at hp
    rcases hp with hp | hp
    · exact List.append_ne_nil_of_left_ne_nil (iha hp hy) zs
    · exact List.append_ne_nil_of_right_ne_nil ys (ihb hp hz)
  | orElse a b iha ihb =>
    rw [fills, Bool.and_eq_true] at hp
    exact h.elim (iha hp.1) (ihb hp.2)
  | ifNext ahead a b iha ihb =>
    rw [fills, Bool.and_eq_true] at hp
    exact h.elim (iha hp.1) (ihb hp.2)
  | within r a iha => exact iha hp h
  | only r e a iha => exact iha hp h
  | onto a b _ ihb =>
    obtain ⟨ys, _, hb⟩ := h
    exact ihb hp hb
  | _ => cases hp

private theorem Rule.fills_body {r : Rule} (hr : r.collapses = false) : r.body.fills = true := by
  cases r <;> first | rfl | cases hr

private theorem Tree.three_le_of_alternates {P Q : Tree → Bool} {ts : List Tree} (h : alternates P Q ts = true)
    (hone : ∀ t, ts ≠ [t]) : 3 ≤ ts.length := by
  match ts with
  | [] => cases h
  | [t] => exact absurd rfl (hone t)
  | [t, o] => simp [alternates] at h
  | _ :: _ :: _ :: _ => simp

open Pattern in
/-- A node over what the body of a rule without operators yields has the shape that the rule asks for. -/
private theorem Rule.shaped_ofRule {r : Rule} (hr : r.collapses = false) {xs : List Tree} (h : r.body.Yields [] xs)
    (p : Position) : (Tree.ofRule r xs p).shaped = true := by
  have hne := ne_nil_of_fills (fills_body hr) h
  have hshape : Tree.shapeOf r xs = true := by
    cases r with
    | notExpression =>
      obtain ⟨ys, zs, ⟨t, ht, rfl⟩, hz, rfl⟩ := h
      obtain ⟨u, rfl, hu⟩ := yieldsOne_negation _ _ hz
      have ht' : t.terminal = .keyword .NOT := by simpa [TokenClass.accepts] using ht
      simp [Tree.shapeOf, Tree.is, Tree.symbol, ht', hu]
    | unaryExpression =>
      obtain ⟨ys, zs, ⟨t, ht, rfl⟩, hz, rfl⟩ := h
      obtain ⟨u, rfl, hu⟩ := yieldsOne_signed _ _ hz
      have ht' : t.terminal = .plus ∨ t.terminal = .minus := by simpa [TokenClass.accepts] using ht
      simpa [Tree.shapeOf, Tree.is, Tree.symbol, hu] using ht'
    | comparisonExpression | isNullExpression | likeExpression | betweenExpression | inExpression => exact h.elim
    | orExpression | andExpression | concatenationExpression | additiveExpression | multiplicativeExpression
    | exponentiationExpression => cases hr
    | _ => rfl
  simp [Tree.ofRule, Tree.shaped, hne, hshape]

/-- On a level with binary operators, a node has the right shape unless there is only one operand. -/
private theorem Rule.shaped_of_operators {r : Rule} (hr : r.collapses = true) {xs : List Tree} (h : r.body.Yields [] xs)
    (hone : ∀ t, xs ≠ [t]) (p : Position) : (Tree.ofRule r xs p).shaped = true := by
  have halt := alternates_body hr h
  have hlen := Tree.three_le_of_alternates halt hone
  have hne : xs ≠ [] := by rintro rfl; cases halt
  have hshape : Tree.shapeOf r xs = true := by
    cases r <;> first
      | (simp only [Tree.shapeOf, Bool.and_eq_true, decide_eq_true_eq]; exact ⟨hlen, halt⟩)
      | cases hr
  simp [Tree.ofRule, Tree.shaped, hne, hshape]

/-- What a call yields has the right shape if what the body yields has. -/
theorem Rule.wellShaped_build {r : Rule} {xs : List Tree} (h : r.body.Yields [] xs)
    (hxs : ∀ t ∈ xs, t.WellShaped) (p : Position) : (r.build xs p).WellShaped := by
  unfold Rule.build
  split
  · rename_i hr
    unfold Tree.collapsed
    split
    · exact hxs _ (by simp)
    · rename_i hone
      exact Tree.wellShaped_ofRule (shaped_of_operators hr h (fun t ht => hone t ht) p) hxs
  · rename_i hr
    exact Tree.wellShaped_ofRule (shaped_ofRule (by simpa using hr) h p) hxs

/-- The same as `Pattern.Proper` for a task; the links of a chain are built onto each other. -/
def Task.Proper (L : List Tree → Prop) : Task → Prop
  | .pattern p => p.Proper L
  | .links _ link _ => link.Proper L ∧ ∀ xs ys, L xs → link.Yields xs ys → L ys

/-- The nodes of what is read have the right shape, if those in front have. -/
theorem Reads.wellShaped {n : Nat} {task : Task} {l : List Tree} {ts : List Token} {o : Reading}
    (h : Reads n task l ts o) {L : List Tree → Prop} {xs : List Tree} {us : List Token} (ho : o = some (xs, us))
    (hp : task.Proper L) (hL : L l) (hl : ∀ t ∈ l, t.WellShaped) : ∀ t ∈ xs, t.WellShaped := by
  induction h generalizing L xs us with
  | empty => cases ho; simp
  | take _ _ => cases ho; simpa using Tree.wellShaped_leaf _
  | advance _ => cases ho; simpa using Tree.wellShaped_leaf _
  | room _ => cases ho; simp
  | seq _ _ hz iha ihb =>
    cases ho
    intro t ht
    rcases List.mem_append.1 (hz ▸ ht) with ht | ht
    · exact iha rfl hp.1 hL hl t ht
    · exact ihb rfl hp.2 hL hl t ht
  | orFirst _ iha => exact iha ho hp.1 hL hl
  | orSecond _ _ _ ihb => exact ihb ho hp.2 hL hl
  | manyStop _ _ => cases ho; simp
  | manyMore _ _ _ hz iha ihm =>
    cases ho
    intro t ht
    rcases List.mem_append.1 (hz ▸ ht) with ht | ht
    · exact iha rfl hp hL hl t ht
    · exact ihm rfl hp hL hl t ht
  | manyOnce _ _ iha => exact iha ho hp hL hl
  | nextYes _ _ iha => exact iha ho hp.1 hL hl
  | nextNo _ _ ihb => exact ihb ho hp.2 hL hl
  | within _ iha => exact iha ho hp hL hl
  | node ha hz iha =>
    cases ho
    subst hz
    simpa using Tree.wellShaped_ofRule (hp.2 _ _ _ hL (ha.yields rfl)) (iha rfl hp.1 hL hl)
  | @collapse n r a l ts ys us zs ha hz iha =>
    cases ho
    subst hz
    have hys := iha rfl hp.1 hL hl
    have hnode := Tree.wellShaped_ofRule (hp.2 _ _ (placeOf us) hL (ha.yields rfl)) hys
    unfold Tree.collapsed
    split
    · simpa using hys
    · simpa using hnode
  | @call n r l ts ys us zs ha hz iha =>
    cases ho
    subst hz
    have hys := iha rfl r.proper_body rfl (by simp)
    simpa using r.wellShaped_build (ha.yields rfl) hys (placeOf us)
  | only _ _ iha => exact iha ho hp hL hl
  | last _ hz iha =>
    cases ho
    subst hz
    intro t ht
    exact iha rfl hp hL hl t (List.mem_of_getLast? (by simpa using ht))
  | onto ha _ iha ihb => exact ihb ho hp.2 ⟨_, hL, ha.yields rfl⟩ (iha rfl hp.1 hL hl)
  | left => cases ho; exact hl
  | chain ha _ iha ihl =>
    refine ihl (L := _) ho ⟨hp.2, ?_⟩ ⟨_, _, hL, ha.yields rfl, .refl⟩ (iha rfl hp.1 hL hl)
    rintro us vs ⟨l', ys, hl', hy, hr⟩ hv
    exact ⟨l', ys, hl', hy, hr.tail hv⟩
  | label _ _ _ _ => cases ho; simpa using Tree.wellShaped_leaf _
  | labelAbsent _ => cases ho; simp
  | linksStop _ => cases ho; exact hl
  | linksMore _ _ ha _ _ iha ihm =>
    exact ihm ho hp (hp.2 _ _ hL (ha.yields rfl)) (iha rfl hp.1 hL hl)
  | linksOnce _ _ _ _ iha => exact iha ho hp.1 hL hl
  | _ => cases ho

open Pattern in
theorem Rule.proper_root (r : Rule) : r.root.Proper (· = []) := by
  cases r <;> simp [Rule.root, Proper, negation, signed, literal]

/-- All nodes of a parsed tree have the shape that their rules ask for. -/
theorem parseRule_shaped (tokens : List Token) (limits : Limits) (root : Rule) (tree : Tree)
    (h : ((Parser.ofTokens tokens limits).parseRule root).1 = .ok tree) :
    ∀ node ∈ tree.descendants, node.shaped = true := by
  obtain ⟨more, e, rest, hread, _⟩ := Parser.reads_of_parseRule h
  exact hread.wellShaped rfl root.proper_root rfl (by simp) tree (by simp)

/-- A negation that is an operand of a disjunction. -/
theorem parseRule_shaped_disjunction :
    ((Parser.ofTokens [.bare (.keyword .NOT) "NOT", .bare .identifier "a", .bare (.keyword .OR) "OR", .bare .number "1"]
        (.forDepth 12)).parseRule .orExpression).1 =
      .ok (.ofRule .orExpression
        [.ofRule .notExpression
          [.leaf (.bare (.keyword .NOT) "NOT"), .ofRule .variableName [.leaf (.bare .identifier "a")] default] default,
         .leaf (.bare (.keyword .OR) "OR"), .ofRule .numericLiteral [.leaf (.bare .number "1")] default] default) ∧
    ∀ node ∈ (Tree.ofRule .orExpression
        [.ofRule .notExpression
          [.leaf (.bare (.keyword .NOT) "NOT"), .ofRule .variableName [.leaf (.bare .identifier "a")] default] default,
         .leaf (.bare (.keyword .OR) "OR"),
         .ofRule .numericLiteral [.leaf (.bare .number "1")] default] default).descendants, node.shaped = true := by
  have hparse : ((Parser.ofTokens [.bare (.keyword .NOT) "NOT", .bare .identifier "a", .bare (.keyword .OR) "OR",
      .bare .number "1"] (.forDepth 12)).parseRule .orExpression).1 =
      .ok (.ofRule .orExpression
        [.ofRule .notExpression
          [.leaf (.bare (.keyword .NOT) "NOT"), .ofRule .variableName [.leaf (.bare .identifier "a")] default] default,
         .leaf (.bare (.keyword .OR) "OR"), .ofRule .numericLiteral [.leaf (.bare .number "1")] default] default) := by
    cbv
  exact ⟨hparse, parseRule_shaped _ _ _ _ hparse⟩

end PlsqlLint
