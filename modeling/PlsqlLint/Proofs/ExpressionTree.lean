import PlsqlLint.Proofs.Precedence

/-!
# Expression trees

The trees of expressions without queries, said without the patterns that read them (`Derives`).  The levels of
precedence are those of `Rule.precedence`: an operand stands on a tighter level than its operator, and a tree of some
level is also one of each looser level.

What a tree starts with depends on its level (`Derives.starts`).  In front of what follows it, it does not look like the
name of an argument (`Derives.unnamed`).
-/

namespace PlsqlLint

/-- The phrases that expressions are made of. -/
inductive Phrase where
  /-- An expression of the level or a tighter one. -/
  | expression (level : Nat)
  /-- A variable with any chain of members, attributes and calls. -/
  | reference
  | arguments
  | argument

namespace Tree

/-- The node of the rule over its children. -/
def branch (r : Rule) (ts : List Tree) : Tree := .ofRule r ts default

/-- Tokens, each with the tree that it joins to what comes before. -/
def joined (more : List (Token × Tree)) : List Tree := more.flatMap fun p => [.leaf p.1, p.2]

/-- A token that may be missing. -/
def perhaps (t : Option Token) : List Tree := t.toList.map .leaf

end Tree

/-- The literals of the rule. -/
def Rule.isLiteral (r : Rule) (t : Token) : Bool :=
  match r with
  | .numericLiteral => t.terminal == .number
  | .characterLiteral => t.terminal == .string
  | .booleanLiteral => t.terminal == .keyword .TRUE || t.terminal == .keyword .FALSE
  | .nullLiteral => t.terminal == .keyword .NULL
  | _ => false

/-- The relational operators. -/
def Terminal.relational : List Terminal :=
  [.equals, .notEqual, .lessThan, .greaterThan, .lessEqual, .greaterEqual]

open PlsqlLint.Tree (branch joined perhaps) in
/-- The trees of a phrase. -/
inductive Derives : Phrase → Tree → Prop
  -- primaries
  | literal {r t} (ht : r.isLiteral t = true) : Derives (.expression 9) (branch r [.leaf t])
  | bracketed {o e c} (ho : o.terminal = .leftParen) (he : Derives (.expression 0) e) (hc : c.terminal = .rightParen) :
      Derives (.expression 9) (branch .bracketedExpression [.leaf o, e, .leaf c])
  | reference {e} (he : Derives .reference e) : Derives (.expression 9) e
  -- references
  | plainVariable {t} (ht : t.terminal.isName = true) : Derives .reference (branch .variableName [.leaf t])
  | bindVariable {c t} (hc : c.terminal = .colon) (ht : t.terminal.isName = true ∨ t.terminal = .number) :
      Derives .reference (branch .bindVariable [.leaf c, .leaf t])
  | memberOf {e d t} (he : Derives .reference e) (hd : d.terminal = .dot)
      (ht : t.terminal.isName = true ∨ t.terminal.isKeyword = true) :
      Derives .reference (branch .memberExpression [e, .leaf d, .leaf t])
  | attributeOf {e d t} (he : Derives .reference e) (hd : d.terminal = .percent)
      (ht : t.terminal.isName = true ∨ t.terminal.isKeyword = true) :
      Derives .reference (branch .attributeExpression [e, .leaf d, .leaf t])
  | callOf {e as} (he : Derives .reference e) (has : Derives .arguments as) :
      Derives .reference (branch .methodCall [e, as])
  -- arguments
  | noArguments {o c} (ho : o.terminal = .leftParen) (hc : c.terminal = .rightParen) :
      Derives .arguments (branch .arguments [.leaf o, .leaf c])
  | arguments {o a more c} (ho : o.terminal = .leftParen) (ha : Derives .argument a)
      (hcommas : ∀ p ∈ more, p.1.terminal = .comma) (hmore : ∀ p ∈ more, Derives .argument p.2)
      (hc : c.terminal = .rightParen) :
      Derives .arguments (branch .arguments (.leaf o :: a :: (joined more ++ [.leaf c])))
  | star {t} (ht : t.terminal = .times) : Derives .argument (branch .argument [.leaf t])
  | named {t a e} (ht : t.terminal.isName = true) (ha : a.terminal = .arrow) (he : Derives (.expression 0) e) :
      Derives .argument (branch .argument [.leaf t, .leaf a, e])
  | positional {e} (he : Derives (.expression 0) e) : Derives .argument (branch .argument [e])
  -- levels of operators
  | tighter {k e} (he : Derives (.expression (k + 1)) e) : Derives (.expression k) e
  | operators {r k e more} (hr : r.collapses = true) (hk : r.precedence = some k)
      (he : Derives (.expression (k + 1)) e) (hne : more ≠ []) (hops : ∀ p ∈ more, r.isOperator p.1 = true)
      (hmore : ∀ p ∈ more, Derives (.expression (k + 1)) p.2) : Derives (.expression k) (branch r (e :: joined more))
  | unary {o e} (ho : o.terminal = .plus ∨ o.terminal = .minus) (he : Derives (.expression 7) e) :
      Derives (.expression 7) (branch .unaryExpression [.leaf o, e])
  | not {o e} (ho : o.terminal = .keyword .NOT) (he : Derives (.expression 2) e) :
      Derives (.expression 2) (branch .notExpression [.leaf o, e])
  -- comparisons
  | relation {e o f} (he : Derives (.expression 4) e) (ho : o.terminal ∈ Terminal.relational)
      (hf : Derives (.expression 4) f) :
      Derives (.expression 3) (branch .comparisonExpression [e, branch .relationalOperator [.leaf o], f])
  | collection {e no w of f} (he : Derives (.expression 4) e) (hno : ∀ t ∈ no, t.terminal = .keyword .NOT)
      (hw : w.isWord "MEMBER" = true ∨ w.isWord "SUBMULTISET" = true) (hof : ∀ t ∈ of, t.terminal = .keyword .OF)
      (hf : Derives (.expression 4) f) :
      Derives (.expression 3) (branch .comparisonExpression (e :: (perhaps no ++ .leaf w :: (perhaps of ++ [f]))))
  | isNull {e i no u} (he : Derives (.expression 4) e) (hi : i.terminal = .keyword .IS)
      (hno : ∀ t ∈ no, t.terminal = .keyword .NOT) (hu : u.terminal = .keyword .NULL) :
      Derives (.expression 3) (branch .isNullExpression (e :: .leaf i :: (perhaps no ++ [.leaf u])))
  | like {e no w f escape} (he : Derives (.expression 4) e) (hno : ∀ t ∈ no, t.terminal = .keyword .NOT)
      (hw : w.terminal = .keyword .LIKE) (hf : Derives (.expression 4) f)
      (hword : ∀ p ∈ escape, p.1.isWord "ESCAPE" = true) (hescape : ∀ p ∈ escape, Derives (.expression 4) p.2) :
      Derives (.expression 3)
        (branch .likeExpression (e :: (perhaps no ++ .leaf w :: f :: joined (Option.toList escape))))
  | between {e no w f a g} (he : Derives (.expression 4) e) (hno : ∀ t ∈ no, t.terminal = .keyword .NOT)
      (hw : w.terminal = .keyword .BETWEEN) (hf : Derives (.expression 4) f) (ha : a.terminal = .keyword .AND)
      (hg : Derives (.expression 4) g) :
      Derives (.expression 3) (branch .betweenExpression (e :: (perhaps no ++ [.leaf w, f, .leaf a, g])))
  | inList {e no w o f more c} (he : Derives (.expression 4) e) (hno : ∀ t ∈ no, t.terminal = .keyword .NOT)
      (hw : w.terminal = .keyword .IN) (ho : o.terminal = .leftParen) (hf : Derives (.expression 0) f)
      (hcommas : ∀ p ∈ more, p.1.terminal = .comma) (hmore : ∀ p ∈ more, Derives (.expression 0) p.2)
      (hc : c.terminal = .rightParen) :
      Derives (.expression 3)
        (branch .inExpression (e :: (perhaps no ++ .leaf w :: .leaf o :: f :: (joined more ++ [.leaf c]))))

/-! ### The tokens of a tree -/

namespace Tree

@[simp] theorem tokens_branch (r : Rule) (ts : List Tree) : (branch r ts).tokens = leaves ts := tokens_ofRule ..

@[simp] theorem joined_nil : joined [] = [] := rfl

@[simp] theorem joined_cons (p : Token × Tree) (more : List (Token × Tree)) :
    joined (p :: more) = .leaf p.1 :: p.2 :: joined more := rfl

@[simp] theorem leaves_perhaps (t : Option Token) : leaves (perhaps t) = t.toList := by
  cases t with
  | none => rfl
  | some t => simp [perhaps]

end Tree

/-- What an expression of the level or a tighter one starts with. -/
def Token.startsLevel (k : Nat) (t : Token) : Bool :=
  t.terminal.isName ||
    [.number, .string, .keyword .TRUE, .keyword .FALSE, .keyword .NULL, .leftParen, .colon].contains t.terminal ||
    (decide (k ≤ 7) && (t.terminal == .plus || t.terminal == .minus)) ||
    (decide (k ≤ 2) && t.terminal == .keyword .NOT)

private theorem Token.startsLevel_of_le {j k : Nat} {t : Token} (h : t.startsLevel k = true) (hjk : j ≤ k) :
    t.startsLevel j = true := by
  simp only [startsLevel, Bool.or_eq_true, Bool.and_eq_true, decide_eq_true_eq] at h ⊢
  rcases h with ((h | h) | ⟨hk, h⟩) | ⟨hk, h⟩
  · exact .inl (.inl (.inl h))
  · exact .inl (.inl (.inr h))
  · exact .inl (.inr ⟨by omega, h⟩)
  · exact .inr ⟨by omega, h⟩

/-- What a phrase starts with. -/
def Phrase.starts : Phrase → Token → Bool
  | .expression k, t => t.startsLevel k
  | .reference, t => t.terminal.isName || t.terminal == .colon
  | .arguments, t => t.terminal == .leftParen
  | .argument, t => t.startsLevel 0 || t.terminal == .times

private theorem Rule.startsLevel_of_isLiteral {r : Rule} {t : Token} (h : r.isLiteral t = true) (k : Nat) :
    t.startsLevel k = true := by
  cases r with
  | numericLiteral | characterLiteral | nullLiteral =>
    simp only [isLiteral, beq_iff_eq] at h
    simp [Token.startsLevel, h]
  | booleanLiteral =>
    simp only [isLiteral, Bool.or_eq_true, beq_iff_eq] at h
    rcases h with h | h <;> simp [Token.startsLevel, h]
  | _ => cases h

private theorem Tree.starts_leaf {t : Token} {P : Token → Bool} (ht : P t = true) (r : Rule) (es : List Tree) :
    ∃ u us, (branch r (.leaf t :: es)).tokens = u :: us ∧ P u = true :=
  ⟨t, leaves es, by simp, ht⟩

private theorem Tree.starts_first {e : Tree} {P : Token → Bool} (h : ∃ t ts, e.tokens = t :: ts ∧ P t = true) (r : Rule)
    (es : List Tree) : ∃ u us, (branch r (e :: es)).tokens = u :: us ∧ P u = true := by
  obtain ⟨t, ts, hts, ht⟩ := h
  exact ⟨t, ts ++ leaves es, by simp [hts], ht⟩

private theorem Tree.starts_of_le {e : Tree} {j k : Nat} (h : ∃ t ts, e.tokens = t :: ts ∧ t.startsLevel k = true)
    (hjk : j ≤ k) : ∃ t ts, e.tokens = t :: ts ∧ t.startsLevel j = true := by
  obtain ⟨t, ts, hts, ht⟩ := h
  exact ⟨t, ts, hts, Token.startsLevel_of_le ht hjk⟩

open PlsqlLint.Tree (starts_leaf starts_first starts_of_le) in
theorem Derives.starts {ph : Phrase} {e : Tree} (h : Derives ph e) :
    ∃ t ts, e.tokens = t :: ts ∧ ph.starts t = true := by
  induction h with
  | literal ht => exact starts_leaf (Rule.startsLevel_of_isLiteral ht 9) _ _
  | bracketed ho he hc ih => exact starts_leaf (by simp [Phrase.starts, Token.startsLevel, ho]) _ _
  | reference he ih =>
    obtain ⟨t, ts, hts, ht⟩ := ih
    refine ⟨t, ts, hts, ?_⟩
    simp only [Phrase.starts, Bool.or_eq_true, beq_iff_eq] at ht ⊢
    rcases ht with ht | ht <;> simp [Token.startsLevel, ht]
  | plainVariable ht => exact starts_leaf (by simp [Phrase.starts, ht]) _ _
  | bindVariable hc ht => exact starts_leaf (by simp [Phrase.starts, hc]) _ _
  | memberOf he hd ht ih => exact starts_first ih _ _
  | attributeOf he hd ht ih => exact starts_first ih _ _
  | callOf he has ih _ => exact starts_first ih _ _
  | noArguments ho hc => exact starts_leaf (by simp [Phrase.starts, ho]) _ _
  | arguments ho => exact starts_leaf (by simp [Phrase.starts, ho]) _ _
  | star ht => exact starts_leaf (by simp [Phrase.starts, ht]) _ _
  | named ht ha he ih => exact starts_leaf (by simp [Phrase.starts, Token.startsLevel, ht]) _ _
  | positional he ih =>
    obtain ⟨t, ts, hts, ht⟩ := ih
    exact ⟨t, ts, by simp [hts], by simpa [Phrase.starts] using .inl ht⟩
  | tighter he ih => exact starts_of_le ih (by omega)
  | operators hr hk he hne hops hmore ih _ => exact starts_first (starts_of_le ih (by omega)) _ _
  | unary ho he ih =>
    refine starts_leaf ?_ _ _
    rcases ho with ho | ho <;> simp [Phrase.starts, Token.startsLevel, ho]
  | not ho he ih => exact starts_leaf (by simp [Phrase.starts, Token.startsLevel, ho]) _ _
  | relation he ho hf ih _ => exact starts_first (starts_of_le ih (by omega)) _ _
  | collection he hno hw hof hf ih _ => exact starts_first (starts_of_le ih (by omega)) _ _
  | isNull he hi hno hu ih => exact starts_first (starts_of_le ih (by omega)) _ _
  | like he hno hw hf hword hescape ih _ _ => exact starts_first (starts_of_le ih (by omega)) _ _
  | between he hno hw hf ha hg ih _ _ => exact starts_first (starts_of_le ih (by omega)) _ _
  | inList he hno hw ho hf hcommas hmore hc ih _ _ => exact starts_first (starts_of_le ih (by omega)) _ _

/-! ### No expression looks like the name of an argument -/

/-- The first token is not an arrow. -/
def NoArrow (ts : List Token) : Prop := ∀ t us, ts = t :: us → t.terminal ≠ .arrow

/-- The tokens do not start with a name and an arrow. -/
def Unnamed (ts : List Token) : Prop := ∀ t us, ts = t :: us → t.terminal.isName = true → NoArrow us

theorem NoArrow.cons {t : Token} (ht : t.terminal ≠ .arrow) (ts : List Token) : NoArrow (t :: ts) := by
  intro u us h
  obtain ⟨rfl, rfl⟩ := List.cons.inj h
  exact ht

private theorem Unnamed.cons {t : Token} (ht : t.terminal.isName = false) (ts : List Token) : Unnamed (t :: ts) := by
  intro u us h hu
  obtain ⟨rfl, rfl⟩ := List.cons.inj h
  rw [ht] at hu
  cases hu

private theorem NoArrow.perhaps {t : Option Token} {k : Keyword} (ht : ∀ u ∈ t, u.terminal = .keyword k)
    {ts : List Token} (hts : NoArrow ts) : NoArrow (t.toList ++ ts) := by
  cases t with
  | none => exact hts
  | some u => exact .cons (by simp [ht u rfl]) _

private theorem NoArrow.joined {more : List (Token × Tree)} (hmore : ∀ p ∈ more, p.1.terminal ≠ .arrow)
    {ts : List Token} (hts : NoArrow ts) : NoArrow (Tree.leaves (Tree.joined more) ++ ts) := by
  cases more with
  | nil => exact hts
  | cons p more =>
    have hp := hmore p (by simp)
    simpa using NoArrow.cons hp _

private theorem Rule.ne_arrow_of_isOperator {r : Rule} {t : Token} (h : r.isOperator t = true) :
    t.terminal ≠ .arrow := by
  intro ht
  cases r <;> simp [isOperator, ht, Token.isWord] at h

private theorem Rule.not_name_of_isLiteral {r : Rule} {t : Token} (h : r.isLiteral t = true) :
    t.terminal.isName = false := by
  cases r with
  | numericLiteral | characterLiteral | nullLiteral =>
    simp only [isLiteral, beq_iff_eq] at h
    simp [h, Terminal.isName]
  | booleanLiteral =>
    simp only [isLiteral, Bool.or_eq_true, beq_iff_eq] at h
    rcases h with h | h <;> simp [h, Terminal.isName]
  | _ => cases h

theorem Derives.unnamed {ph : Phrase} {e : Tree} (h : Derives ph e) (h₁ : ph ≠ .arguments) (h₂ : ph ≠ .argument)
    {rest : List Token} (hrest : NoArrow rest) : Unnamed (e.tokens ++ rest) := by
  induction h generalizing rest with
  | literal ht => simpa using Unnamed.cons (Rule.not_name_of_isLiteral ht) _
  | bracketed ho he hc ih => simpa using Unnamed.cons (by simp [ho, Terminal.isName]) _
  | reference he ih => exact ih (by simp) (by simp) hrest
  | @plainVariable t ht =>
    intro u us hu _
    obtain ⟨rfl, rfl⟩ := List.cons.inj (by simpa using hu)
    exact hrest
  | bindVariable hc ht => simpa using Unnamed.cons (by simp [hc, Terminal.isName]) _
  | memberOf he hd ht ih | attributeOf he hd ht ih =>
    simpa using ih (by simp) (by simp) (NoArrow.cons (by simp [hd]) _)
  | @callOf e as he has ih _ =>
    obtain ⟨t, ts, hts, ht⟩ := has.starts
    have ht' : t.terminal = .leftParen := by simpa [Phrase.starts] using ht
    simpa [hts] using ih (by simp) (by simp) (NoArrow.cons (by simp [ht']) _)
  | noArguments | arguments => exact absurd rfl h₁
  | star | named | positional => exact absurd rfl h₂
  | tighter he ih => exact ih (by simp) (by simp) hrest
  | operators hr hk he hne hops hmore ih _ =>
    simpa using ih (by simp) (by simp)
      (NoArrow.joined (fun p hp => Rule.ne_arrow_of_isOperator (hops p hp)) hrest)
  | @unary o e ho he ih =>
    have hname : o.terminal.isName = false := by rcases ho with ho | ho <;> simp [ho, Terminal.isName]
    simpa using Unnamed.cons hname _
  | not ho he ih => simpa using Unnamed.cons (by simp [ho, Terminal.isName]) _
  | @relation e o f he ho hf ih _ =>
    have ho' : o.terminal ≠ .arrow := by
      intro h
      rw [h] at ho
      revert ho
      decide
    simpa using ih (by simp) (by simp) (NoArrow.cons ho' _)
  | @collection e no w of f he hno hw hof hf ih _ =>
    have hw' : w.terminal ≠ .arrow := by
      rcases hw with hw | hw <;> simp [Token.identifier_of_isWord hw]
    simpa using ih (by simp) (by simp) (NoArrow.perhaps hno (NoArrow.cons hw' _))
  | isNull he hi hno hu ih => simpa using ih (by simp) (by simp) (NoArrow.cons (by simp [hi]) _)
  | like he hno hw hf hword hescape ih _ _ =>
    simpa using ih (by simp) (by simp) (NoArrow.perhaps hno (NoArrow.cons (by simp [hw]) _))
  | between he hno hw hf ha hg ih _ _ =>
    simpa using ih (by simp) (by simp) (NoArrow.perhaps hno (NoArrow.cons (by simp [hw]) _))
  | inList he hno hw ho hf hcommas hmore hc ih _ _ =>
    simpa using ih (by simp) (by simp) (NoArrow.perhaps hno (NoArrow.cons (by simp [hw]) _))

end PlsqlLint
