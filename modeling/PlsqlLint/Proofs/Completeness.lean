import PlsqlLint.Proofs.ExpressionTree

/-!
# Every expression tree is read

The tokens of an expression tree are read as that tree (`parseRule_of_derives`), whatever the names in it are: a word
such as `MOD` or `MEMBER` is an operator only where an operand is complete.

Each level of precedence has a pattern (`Pattern.level`).  It reads a tree of the level in front of any token that does
not go on with the expression on this level or a tighter one (`Stops`).  The proof follows the tree
(`Phrase.readable_of_derives`): a node reads its operands, each in front of the operator behind it, and a tree of a
tighter level climbs through the levels above, which read no operator.
-/

namespace PlsqlLint

/-! ### Single tokens -/

@[simp] theorem TokenClass.accepts_terminal (k : Terminal) (t : Token) :
    (TokenClass.oneOf [k]).accepts t = decide (t.terminal = k) := by
  simp [accepts]

@[simp] theorem TokenClass.accepts_word (w : String) (t : Token) : (TokenClass.word w).accepts t = t.isWord w := rfl

private theorem Tree.ofRule_cons (r : Rule) (t : Tree) (ts : List Tree) (p : Position) :
    ofRule r (t :: ts) p = branch r (t :: ts) := by
  simp [branch, ofRule, Span.unionAll?]

namespace Reads

variable {n : Nat} {l : List Tree} {t : Token} {ts us : List Token} {e : String}

theorem terminal {k : Terminal} (h : t.terminal = k) (hk : k ≠ .endOfInput) (hts : ts ≠ []) :
    Reads n (Pattern.terminal k) l (t :: ts) (some ([.leaf t], ts)) :=
  token (by simp [h]) (h ▸ hk) hts

theorem terminalNot {k : Terminal} (h : t.terminal ≠ k) : Reads n (Pattern.terminal k) l (t :: ts) none :=
  .takeNot (by simpa using h)

theorem word {w : String} (h : t.isWord w = true) (hts : ts ≠ []) :
    Reads n (Pattern.word w) l (t :: ts) (some ([.leaf t], ts)) :=
  token h (by simp [Token.identifier_of_isWord h]) hts

/-- A token that is taken is passed, unless it can be the end of the input. -/
theorem taken {k : TokenClass} {xs : List Tree} (h : Reads n (Pattern.take k e) l ts (some (xs, us)))
    (hk : k.passable = true) (hts : Terminated ts) : ∃ t, k.accepts t = true ∧ Consumes ts [t] us := by
  cases h with
  | take ht hu => exact ⟨_, ht, hu ▸ Consumes.passed (TokenClass.ne_endOfInput hk ht) hts⟩

/-- A keyword that may be missing, in front of another token. -/
private theorem perhaps {k : Keyword} {no : Option Token} (hno : ∀ t ∈ no, t.terminal = .keyword k) {w : Token}
    (hw : w.terminal ≠ .keyword k) :
    Reads n (Pattern.maybeKeyword k) l (no.toList ++ w :: ts) (some (Tree.perhaps no, w :: ts)) := by
  cases no with
  | none => exact .nextNo (by simpa using hw) .empty
  | some t =>
    have ht := hno t rfl
    exact .nextYes (by simp [ht]) (token (by simp [ht]) (by simp [ht]) (by simp))

/-! ### Operands with operators between them -/

/-- Operators with an operand behind each.  What follows an operand is the next operator or the rest: the property `G`
holds of both. -/
private theorem operands {operand operator : Pattern} {more : List (Token × Tree)} {rest : List Token}
    {G : List Token → Prop} (hop : ∀ p ∈ more, ∀ us, us ≠ [] → Reads n operator l (p.1 :: us) (some ([.leaf p.1], us)))
    (hel : ∀ p ∈ more, ∀ us, G us → Reads n operand l (p.2.tokens ++ us) (some ([p.2], us)))
    (hG : ∀ p ∈ more, ∀ us, G (p.1 :: us)) (hrest : G rest) (hne : rest ≠ []) (hstop : Reads n operator l rest none) :
    Reads n (Pattern.many (.seq operator operand)) l (Tree.leaves (Tree.joined more) ++ rest)
      (some (Tree.joined more, rest)) := by
  induction more with
  | nil => exact .manyStop (.seqFirst hstop)
  | cons p more ih =>
    have ih := ih (fun q hq => hop q (by simp [hq])) (fun q hq => hel q (by simp [hq]))
      (fun q hq => hG q (by simp [hq]))
    have hrest' : G (Tree.leaves (Tree.joined more) ++ rest) := by
      cases more with
      | nil => exact hrest
      | cons q more => simpa using hG q (by simp) _
    have hel := hel p (by simp) _ hrest'
    have hop := hop p (by simp) (p.2.tokens ++ (Tree.leaves (Tree.joined more) ++ rest)) (by simp [hne])
    have hlen : (Tree.leaves (Tree.joined more) ++ rest).length <
        (p.1 :: (p.2.tokens ++ (Tree.leaves (Tree.joined more) ++ rest))).length := by
      simp only [List.length_append, List.length_cons]
      omega
    simpa using Reads.manyMore (.seq hop hel rfl) hlen ih rfl

end Reads

/-! ### The levels and what goes on with them -/

/-- The pattern of an expression of the level or a tighter one. -/
def Pattern.level : Nat → Pattern
  | 0 => expression
  | 1 => .call .andExpression
  | 2 => negation
  | 3 => comparison
  | 4 => operand
  | 5 => .call .additiveExpression
  | 6 => .call .multiplicativeExpression
  | 7 => signed
  | 8 => .call .exponentiationExpression
  | _ => primary

/-- How many rules lie between the level and the primaries. -/
def Pattern.heightOf : Nat → Nat
  | 0 => 6
  | 1 => 5
  | 2 | 3 | 4 => 4
  | 5 => 3
  | 6 => 2
  | 7 | 8 => 1
  | _ => 0

/-- The pattern of the operators of a rule. -/
def Rule.operator : Rule → Pattern
  | .orExpression => .keyword .OR
  | .andExpression => .keyword .AND
  | .concatenationExpression => .terminal .concat
  | .additiveExpression => .take (.oneOf [.plus, .minus]) "'+' or '-'"
  | .multiplicativeExpression =>
    .ifNext [[.word "MOD"]] (.word "MOD") (.take (.oneOf [.times, .divide]) "'*' or '/'")
  | .exponentiationExpression => .terminal .power
  | _ => .fail

private theorem Rule.body_of_collapses {r : Rule} {k : Nat} (hr : r.collapses = true) (hk : r.precedence = some k) :
    r.body = .separated (.level (k + 1)) r.operator ∧ Pattern.level k = .call r ∧
      Pattern.heightOf k = Pattern.heightOf (k + 1) + 1 := by
  cases r <;> first | (cases hr; done) | (cases hk; exact ⟨rfl, rfl, rfl⟩)

/-- The terminals and the words that go on with an expression on exactly this level. -/
def Pattern.extending : Nat → List Terminal × List String
  | 0 => ([.keyword .OR], [])
  | 1 => ([.keyword .AND], [])
  | 3 =>
    (Terminal.relational ++ [.keyword .NOT, .keyword .IS, .keyword .LIKE, .keyword .BETWEEN, .keyword .IN],
      ["MEMBER", "SUBMULTISET", "ESCAPE"])
  | 4 => ([.concat], [])
  | 5 => ([.plus, .minus], [])
  | 6 => ([.times, .divide], ["MOD"])
  | 8 => ([.power], [])
  | 9 => ([.dot, .percent, .leftParen], [])
  | _ => ([], [])

/-- Whether the token goes on with an expression on exactly this level. -/
def Token.extendsLevel (t : Token) (k : Nat) : Bool :=
  (Pattern.extending k).1.contains t.terminal || (Pattern.extending k).2.any t.isWord

/-- The tokens do not go on with an expression of the level or a tighter one. -/
def Stops (k : Nat) (ts : List Token) : Prop := ∃ t us, ts = t :: us ∧ ∀ j, k ≤ j → t.extendsLevel j = false

theorem Token.isWord_unique {t : Token} {v w : String} (hv : t.isWord v = true) (hw : t.isWord w = true) :
    sameCaseless v w = true := by
  simp only [isWord, sameCaseless, Bool.and_eq_true, beq_iff_eq] at hv hw ⊢
  rw [← hv.2, ← hw.2]

namespace Stops

private theorem ne_nil {k : Nat} {ts : List Token} (h : Stops k ts) : ts ≠ [] := by
  obtain ⟨t, us, rfl, _⟩ := h
  simp

theorem mono {j k : Nat} {ts : List Token} (h : Stops j ts) (hjk : j ≤ k) : Stops k ts := by
  obtain ⟨t, us, rfl, ht⟩ := h
  exact ⟨t, us, rfl, fun i hi => ht i (by omega)⟩

private theorem extending_of_le {j : Nat} (hj : 10 ≤ j) : Pattern.extending j = ([], []) := by
  unfold Pattern.extending
  split <;> first | omega | rfl

/-- A token that is not a word stops a level if its terminal goes on with none of the tighter ones. -/
private theorem of_terminal {k : Nat} {t : Token} {a : Terminal} (ht : t.terminal = a) (ha : a ≠ .identifier)
    (h : ∀ j < 10, k ≤ j → a ∉ (Pattern.extending j).1) (ts : List Token) : Stops k (t :: ts) := by
  refine ⟨t, ts, rfl, fun j hj => ?_⟩
  have hword : ∀ w, t.isWord w = false := by
    intro w
    simp [Token.isWord, ht, ha]
  by_cases hj' : j < 10
  · simpa [Token.extendsLevel, hword, ht] using h j hj' hj
  · simp [Token.extendsLevel, extending_of_le (show 10 ≤ j by omega)]

/-- A word stops a level if neither it nor a name goes on with one of the tighter ones. -/
private theorem of_word {k : Nat} {t : Token} {w : String} (ht : t.isWord w = true)
    (h : ∀ j < 10, k ≤ j → Terminal.identifier ∉ (Pattern.extending j).1 ∧
      ∀ v ∈ (Pattern.extending j).2, sameCaseless w v = false) (ts : List Token) : Stops k (t :: ts) := by
  refine ⟨t, ts, rfl, fun j hj => ?_⟩
  by_cases hj' : j < 10
  · obtain ⟨hname, hwords⟩ := h j hj' hj
    have hnone : (Pattern.extending j).2.any t.isWord = false := by
      rw [List.any_eq_false]
      intro v hv hvt
      have := Token.isWord_unique ht hvt
      rw [hwords v hv] at this
      cases this
    simpa [Token.extendsLevel, Token.identifier_of_isWord ht, hnone] using hname
  · simp [Token.extendsLevel, extending_of_le (show 10 ≤ j by omega)]

/-- An operator stops its operands. -/
private theorem of_isOperator {r : Rule} {k : Nat} {t : Token} (hk : r.precedence = some k) (ht : r.isOperator t = true)
    (ts : List Token) : Stops (k + 1) (t :: ts) := by
  cases r with
  | orExpression | andExpression | concatenationExpression | exponentiationExpression =>
    cases hk
    simp only [Rule.isOperator, beq_iff_eq] at ht
    exact of_terminal ht (by decide) (by decide) ts
  | additiveExpression =>
    cases hk
    simp only [Rule.isOperator, Bool.or_eq_true, beq_iff_eq] at ht
    rcases ht with ht | ht <;> exact of_terminal ht (by decide) (by decide) ts
  | multiplicativeExpression =>
    cases hk
    simp only [Rule.isOperator, Bool.or_eq_true, beq_iff_eq] at ht
    rcases ht with (ht | ht) | ht
    · exact of_terminal ht (by decide) (by decide) ts
    · exact of_terminal ht (by decide) (by decide) ts
    · exact of_word ht (by decide) ts
  | _ => cases ht

/-- What stops a level is no operator of it. -/
private theorem not_operator {r : Rule} {k : Nat} {ts : List Token} (hk : r.precedence = some k) (h : Stops k ts) :
    ∃ t us, ts = t :: us ∧ r.isOperator t = false := by
  obtain ⟨t, us, rfl, ht⟩ := h
  refine ⟨t, us, rfl, ?_⟩
  have ht := ht k (by omega)
  cases r <;> first
    | rfl
    | (cases hk; simpa [Token.extendsLevel, Pattern.extending, Rule.isOperator, and_assoc] using ht)

end Stops

private theorem Rule.reads_operator {r : Rule} {t : Token} (ht : r.isOperator t = true) (n : Nat) (l : List Tree)
    {ts : List Token} (hts : ts ≠ []) : Reads n r.operator l (t :: ts) (some ([.leaf t], ts)) := by
  cases r with
  | orExpression | andExpression | concatenationExpression | exponentiationExpression =>
    simp only [isOperator, beq_iff_eq] at ht
    exact Reads.terminal ht (by simp) hts
  | additiveExpression =>
    simp only [isOperator, Bool.or_eq_true, beq_iff_eq] at ht
    rcases ht with ht | ht <;> exact Reads.token (by simp [TokenClass.accepts, ht]) (by simp [ht]) hts
  | multiplicativeExpression =>
    simp only [isOperator, Bool.or_eq_true, beq_iff_eq] at ht
    have hmark : ∀ a, t.terminal = a → a = .times ∨ a = .divide →
        Reads n multiplicativeExpression.operator l (t :: ts) (some ([.leaf t], ts)) := by
      intro a hta ha
      refine .nextNo ?_ (Reads.token ?_ ?_ hts) <;>
        rcases ha with rfl | rfl <;> simp [TokenClass.accepts, Token.isWord, hta]
    rcases ht with (ht | ht) | ht
    · exact hmark _ ht (.inl rfl)
    · exact hmark _ ht (.inr rfl)
    · exact .nextYes (by simpa [TokenClass.accepts] using ht) (Reads.word ht hts)
  | _ => cases ht

private theorem Rule.refuses_operator {r : Rule} {t : Token} (ht : r.isOperator t = false) (n : Nat) (l : List Tree)
    (ts : List Token) : Reads n r.operator l (t :: ts) none := by
  cases r with
  | orExpression | andExpression | concatenationExpression | exponentiationExpression =>
    exact Reads.terminalNot (by simpa [isOperator] using ht)
  | additiveExpression => exact .takeNot (by simpa [TokenClass.accepts, isOperator] using ht)
  | multiplicativeExpression =>
    simp only [isOperator, Bool.or_eq_false_iff] at ht
    refine .nextNo (by simpa [TokenClass.accepts] using ht.2) (.takeNot ?_)
    simpa [TokenClass.accepts] using ht.1
  | _ => exact .fail

/-! ### Comparisons -/

namespace Reads

open Pattern

variable {n : Nat} {a : Tree} {no : Option Token} {w : Token} {ts us : List Token}

private theorem comparisonNot {r : Rule} {tail : Pattern} (h : Reads n tail [a] ts none) :
    Reads (n + 1) (comparisonWith r tail) [a] ts none :=
  .nodeNot (.seqSecond .left (.within h))

private theorem comparisonYes {r : Rule} {tail : Pattern} {ys : List Tree} (h : Reads n tail [a] ts (some (ys, us))) :
    Reads (n + 1) (comparisonWith r tail) [a] ts (some ([.branch r (a :: ys)], us)) :=
  .node (.seq .left (.within h) rfl) (by rw [← Tree.ofRule_cons]; rfl)

/-- Behind `NOT`, if it is there, a tail is refused if its word is. -/
private theorem refused {p q : Pattern} (hno : ∀ t ∈ no, t.terminal = .keyword .NOT) (hw : w.terminal ≠ .keyword .NOT)
    (h : Reads n p [a] (w :: ts) none) :
    Reads n (Pattern.seq (maybeKeyword .NOT) (.seq p q)) [a] (no.toList ++ w :: ts) none :=
  .seqSecond (perhaps hno hw) (.seqFirst h)

/-- The tails of comparisons that the word behind `NOT`, if that is there, does not start are refused. -/
private theorem relationalNot (hno : ∀ t ∈ no, t.terminal = .keyword .NOT) (hw : w.terminal ∉ Terminal.relational) :
    Reads (n + 1) relationalTail [a] (no.toList ++ w :: ts) none := by
  refine .seqFirst (.callNot ?_)
  cases no with
  | none => exact .takeNot (by simpa [TokenClass.accepts, Terminal.relational] using hw)
  | some t => exact .takeNot (by simp [TokenClass.accepts, hno t rfl])

private theorem collectionNot (hno : ∀ t ∈ no, t.terminal = .keyword .NOT) (hw : w.terminal ≠ .keyword .NOT)
    (hm : w.isWord "MEMBER" = false) (hs : w.isWord "SUBMULTISET" = false) :
    Reads n collectionTail [a] (no.toList ++ w :: ts) none :=
  refused hno hw (.nextNo (by simpa using hm) (.takeNot hs))

private theorem isNullNot (hno : ∀ t ∈ no, t.terminal = .keyword .NOT) (hw : w.terminal ≠ .keyword .IS) :
    Reads n isNullTail [a] (no.toList ++ w :: ts) none := by
  refine .seqFirst ?_
  cases no with
  | none => exact terminalNot hw
  | some t => exact terminalNot (by simp [hno t rfl])

private theorem likeNot (hno : ∀ t ∈ no, t.terminal = .keyword .NOT) (hw : w.terminal ≠ .keyword .NOT)
    (h : w.terminal ≠ .keyword .LIKE) : Reads n likeTail [a] (no.toList ++ w :: ts) none :=
  refused hno hw (terminalNot h)

private theorem betweenNot (hno : ∀ t ∈ no, t.terminal = .keyword .NOT) (hw : w.terminal ≠ .keyword .NOT)
    (h : w.terminal ≠ .keyword .BETWEEN) : Reads n betweenTail [a] (no.toList ++ w :: ts) none :=
  refused hno hw (terminalNot h)

private theorem inNot (hno : ∀ t ∈ no, t.terminal = .keyword .NOT) (hw : w.terminal ≠ .keyword .NOT)
    (h : w.terminal ≠ .keyword .IN) : Reads n inTail [a] (no.toList ++ w :: ts) none :=
  refused hno hw (terminalNot h)

/-- An operand that no comparison follows stands for itself. -/
private theorem noComparison {l : List Tree} {rest : List Token} (h : Reads (n + 2) operand l ts (some ([a], rest)))
    (hrest : Stops 3 rest) : Reads (n + 2) comparison l ts (some ([a], rest)) := by
  obtain ⟨w, us, rfl, hw⟩ := hrest
  have hw := hw 3 (by omega)
  simp only [Token.extendsLevel, Pattern.extending, Bool.or_eq_false_iff, List.any_cons, List.any_nil, Bool.or_false,
    List.contains_eq_mem, List.mem_append, decide_eq_false_iff_not, not_or, List.mem_cons, List.not_mem_nil,
    not_false_eq_true, and_true] at hw
  obtain ⟨⟨hrel, hnot, his, hlike, hbetween, hin⟩, hmember, hsub, _⟩ := hw
  have hno : ∀ t ∈ (none : Option Token), t.terminal = .keyword .NOT := by simp
  refine .onto h ?_
  refine .orSecond (comparisonNot (relationalNot hno hrel)) ?_
  refine .orSecond (comparisonNot (collectionNot hno hnot hmember hsub)) ?_
  refine .orSecond (comparisonNot (isNullNot hno his)) ?_
  refine .orSecond (comparisonNot (likeNot hno hnot hlike)) ?_
  refine .orSecond (comparisonNot (betweenNot hno hnot hbetween)) ?_
  refine .orSecond (comparisonNot (inNot hno hnot hin)) ?_
  exact .orFirst .left

end Reads

/-! ### How high a tree is -/

namespace Tree

private theorem levels_pos (t : Tree) : 1 ≤ t.levels := by
  cases t <;> simp [levels]

@[simp] theorem levels_branch (r : Rule) (ts : List Tree) : (branch r ts).levels = 1 + levelsAll ts := by
  rw [branch, ofRule, levels]

@[simp] theorem levelsAll_cons (t : Tree) (ts : List Tree) : levelsAll (t :: ts) = max t.levels (levelsAll ts) := by
  rw [levelsAll]

@[simp] theorem levelsAll_append (ts us : List Tree) : levelsAll (ts ++ us) = max (levelsAll ts) (levelsAll us) := by
  induction ts with
  | nil => simp [levelsAll]
  | cons t ts ih => rw [List.cons_append, levelsAll, levelsAll, ih, Nat.max_assoc]

private theorem levels_le_joined {more : List (Token × Tree)} {p : Token × Tree} (hp : p ∈ more) :
    p.2.levels ≤ levelsAll (joined more) := by
  induction more with
  | nil => cases hp
  | cons q more ih =>
    rw [joined_cons, levelsAll_cons, levelsAll_cons]
    rcases List.mem_cons.1 hp with rfl | hp
    · omega
    · have := ih hp
      omega

end Tree

/-! ### Reading a tree -/

open Pattern (level heightOf link linkAhead)

/-- The tokens of the tree are read as the tree.  Eight levels of nesting are enough for each level of the tree. -/
def Phrase.Readable (ph : Phrase) (e : Tree) : Prop :=
  match ph with
  | .expression k =>
    ∀ n l rest, 8 * e.levels + heightOf k ≤ n + 8 → Stops k rest →
      Reads n (level k) l (e.tokens ++ rest) (some ([e], rest))
  | .reference =>
    -- the links behind the variable are read before those that follow the tree
    ∃ c ≤ e.levels, ∀ n l rest o, 8 * e.levels ≤ n + 8 → rest ≠ [] →
      Reads n (.links linkAhead link (c + 1)) [e] rest o → Reads n Pattern.reference l (e.tokens ++ rest) o
  | .arguments =>
    ∀ n l rest, 8 * e.levels ≤ n + 8 → rest ≠ [] →
      Reads n (Pattern.call .arguments) l (e.tokens ++ rest) (some ([e], rest))
  | .argument =>
    ∀ n l rest, 8 * e.levels ≤ n + 8 → Stops 0 rest → NoArrow rest →
      Reads n (Pattern.call .argument) l (e.tokens ++ rest) (some ([e], rest))

namespace Phrase.Readable

open Pattern

/-- A rule with binary operators reads an operand alone as that operand. -/
private theorem single {r : Rule} {k : Nat} {e : Tree} (hr : r.collapses = true) (hk : r.precedence = some k)
    (h : (Phrase.expression (k + 1)).Readable e) : (Phrase.expression k).Readable e := by
  intro n l rest hn hrest
  obtain ⟨hbody, hlevel, hheight⟩ := Rule.body_of_collapses hr hk
  obtain ⟨t, us, hus, ht⟩ := hrest.not_operator hk
  obtain ⟨m, rfl⟩ : ∃ m, n = m + 1 := ⟨n - 1, by have := e.levels_pos; omega⟩
  have hone := h m [] rest (by omega) (hrest.mono (by omega))
  have hread : Reads m r.body [] (e.tokens ++ rest) (some ([e], rest)) := by
    rw [hbody]
    refine .seq hone (.manyStop (.seqFirst ?_)) rfl
    rw [hus]
    exact Rule.refuses_operator ht m [] us
  rw [hlevel]
  exact .call hread (by simp [Rule.build, hr, Tree.collapsed])

/-- Several operands with operators between them become a node. -/
private theorem several {r : Rule} {k : Nat} {e : Tree} {more : List (Token × Tree)} (hr : r.collapses = true)
    (hk : r.precedence = some k) (he : (Phrase.expression (k + 1)).Readable e) (hne : more ≠ [])
    (hops : ∀ p ∈ more, r.isOperator p.1 = true)
    (hmore : ∀ p ∈ more, (Phrase.expression (k + 1)).Readable p.2) :
    (Phrase.expression k).Readable (.branch r (e :: Tree.joined more)) := by
  intro n l rest hn hrest
  obtain ⟨hbody, hlevel, hheight⟩ := Rule.body_of_collapses hr hk
  obtain ⟨t, us, hus, ht⟩ := hrest.not_operator hk
  rw [Tree.levels_branch, Tree.levelsAll_cons] at hn
  obtain ⟨m, rfl⟩ : ∃ m, n = m + 1 := ⟨n - 1, by omega⟩
  have hrest' := hrest.mono (show k ≤ k + 1 by omega)
  have hmany : Reads m (Pattern.many (.seq r.operator (level (k + 1)))) [] (Tree.leaves (Tree.joined more) ++ rest)
      (some (Tree.joined more, rest)) := by
    refine Reads.operands (G := Stops (k + 1)) ?_ ?_ ?_ hrest' hrest.ne_nil ?_
    · exact fun p hp us hus => Rule.reads_operator (hops p hp) m [] hus
    · exact fun p hp us hus => hmore p hp m [] us (by have := Tree.levels_le_joined hp; omega) hus
    · exact fun p hp us => .of_isOperator hk (hops p hp) us
    · rw [hus]
      exact Rule.refuses_operator ht m [] us
  have hfirst : Stops (k + 1) (Tree.leaves (Tree.joined more) ++ rest) := by
    cases more with
    | nil => exact hrest'
    | cons p more => simpa using Stops.of_isOperator hk (hops p (by simp)) _
  have hone := he m [] _ (by omega) hfirst
  have hread : Reads m r.body [] (e.tokens ++ (Tree.leaves (Tree.joined more) ++ rest))
      (some (e :: Tree.joined more, rest)) := by
    rw [hbody]
    exact .seq hone hmany rfl
  rw [hlevel, Tree.tokens_branch, Tree.leaves_cons, List.append_assoc]
  refine .call hread ?_
  cases more with
  | nil => exact absurd rfl hne
  | cons p more => simp [Rule.build, hr, Tree.collapsed, Tree.ofRule_cons]

/-- A tree of a tighter level is read on the level above it. -/
private theorem climb {k : Nat} {e : Tree} (he : Derives (.expression (k + 1)) e)
    (h : (Phrase.expression (k + 1)).Readable e) : (Phrase.expression k).Readable e := by
  obtain ⟨t, ts, hts, ht⟩ := he.starts
  have hpos := e.levels_pos
  match k with
  | 0 => exact single (r := .orExpression) rfl rfl h
  | 1 => exact single (r := .andExpression) rfl rfl h
  | 2 =>
    intro n l rest hn hrest
    have hnot : t.terminal ≠ .keyword .NOT := by
      intro htn
      simp [Phrase.starts, Token.startsLevel, htn, Terminal.isName] at ht
    refine .nextNo ?_ (h n l rest hn (hrest.mono (by omega)))
    rw [hts]
    simpa using hnot
  | 3 =>
    intro n l rest hn hrest
    simp only [heightOf] at hn
    obtain ⟨m, rfl⟩ : ∃ m, n = m + 2 := ⟨n - 2, by omega⟩
    exact Reads.noComparison (h (m + 2) l rest (by simp only [heightOf]; omega) (hrest.mono (by omega))) hrest
  | 4 => exact single (r := .concatenationExpression) rfl rfl h
  | 5 => exact single (r := .additiveExpression) rfl rfl h
  | 6 => exact single (r := .multiplicativeExpression) rfl rfl h
  | 7 =>
    intro n l rest hn hrest
    have hsign : t.terminal ≠ .plus ∧ t.terminal ≠ .minus := by
      constructor <;>
        · intro htn
          simp [Phrase.starts, Token.startsLevel, htn, Terminal.isName] at ht
    refine .nextNo ?_ (h n l rest hn (hrest.mono (by omega)))
    rw [hts]
    simpa [TokenClass.accepts] using hsign
  | 8 => exact single (r := .exponentiationExpression) rfl rfl h
  | k + 9 =>
    intro n l rest hn hrest
    exact h n l rest hn (hrest.mono (by omega))

end Phrase.Readable

/-! ### Primaries -/

private theorem Rule.build_cons {r : Rule} (hr : r.collapses = false) (t : Tree) (ts : List Tree) (p : Position) :
    r.build (t :: ts) p = .branch r (t :: ts) := by
  simp [Rule.build, hr, Tree.ofRule_cons]

namespace Reads

open Pattern

variable {n : Nat} {l : List Tree} {ts us : List Token}

/-- A call of a rule that does not collapse yields the node over what the body yields. -/
private theorem nodeOf {r : Rule} (hr : r.collapses = false) {x : Tree} {xs : List Tree}
    (h : Reads n r.body [] ts (some (x :: xs, us))) :
    Reads (n + 1) (Pattern.call r) l ts (some ([.branch r (x :: xs)], us)) :=
  .call h (by rw [Rule.build_cons hr])

private theorem ofLiteral {r : Rule} {t : Token} (ht : r.isLiteral t = true) (hus : us ≠ []) :
    Reads (n + 1) primary l (t :: us) (some ([.branch r [.leaf t]], us)) := by
  cases r with
  | numericLiteral =>
    simp only [Rule.isLiteral, beq_iff_eq] at ht
    refine .nextYes (by simp [TokenClass.accepts, ht]) (.nextYes (by simp [ht]) (nodeOf rfl ?_))
    exact terminal ht (by simp) hus
  | characterLiteral =>
    simp only [Rule.isLiteral, beq_iff_eq] at ht
    refine .nextYes (by simp [TokenClass.accepts, ht]) (.nextNo (by simp [ht]) ?_)
    refine .nextYes (by simp [ht]) (nodeOf rfl ?_)
    exact terminal ht (by simp) hus
  | booleanLiteral =>
    simp only [Rule.isLiteral, Bool.or_eq_true, beq_iff_eq] at ht
    rcases ht with ht | ht
    all_goals
      refine .nextYes (by simp [TokenClass.accepts, ht]) (.nextNo (by simp [ht]) (.nextNo (by simp [ht]) ?_))
      refine .nextYes (by simp [TokenClass.accepts, ht]) (nodeOf rfl ?_)
      exact token (by simp [TokenClass.accepts, ht]) (by simp [ht]) hus
  | nullLiteral =>
    simp only [Rule.isLiteral, beq_iff_eq] at ht
    refine .nextYes (by simp [TokenClass.accepts, ht]) (.nextNo (by simp [ht]) (.nextNo (by simp [ht]) ?_))
    refine .nextNo (by simp [TokenClass.accepts, ht]) (.nextYes (by simp [ht]) (nodeOf rfl ?_))
    exact terminal ht (by simp) hus
  | _ => cases ht

/-- A pattern between round brackets. -/
private theorem bracketed {p : Pattern} {o c : Token} {xs : List Tree} {rest : List Token}
    (ho : o.terminal = .leftParen) (h : Reads n p l (ts ++ c :: rest) (some (xs, c :: rest)))
    (hc : c.terminal = .rightParen) (hrest : rest ≠ []) :
    Reads n (Pattern.bracketed p) l (o :: (ts ++ c :: rest)) (some (.leaf o :: (xs ++ [.leaf c]), rest)) :=
  .seq (terminal ho (by simp) (by simp)) (.seq h (terminal hc (by simp) hrest) rfl) rfl

/-- What starts an expression is not a query. -/
private theorem noQuery {p : Pattern} {t : Token} {o : Reading} (ht : t.startsLevel 0 = true)
    (h : Reads n p l (t :: ts) o) : Reads n (queryOr p) l (t :: ts) o := by
  refine .nextNo ?_ h
  have hsel : t.terminal ≠ .keyword .SELECT := by
    intro htn
    simp [Token.startsLevel, htn, Terminal.isName] at ht
  simpa using hsel

private theorem noLink {c : Nat} {rest : List Token} (h : Stops 9 rest) :
    Reads n (.links linkAhead link c) l rest (some (l, rest)) := by
  obtain ⟨t, us, rfl, ht⟩ := h
  have ht := ht 9 (by omega)
  refine .linksStop ?_
  simp only [Token.extendsLevel, Pattern.extending, List.contains_eq_mem, List.mem_cons, List.not_mem_nil, or_false,
    List.any_nil, Bool.or_false, decide_eq_false_iff_not, not_or] at ht
  simp [linkAhead, Lookahead.holds, Cursor.sees, Cursor.fits, Cursor.peek, TokenClass.accepts, ht]

/-- A member or an attribute as the next link. -/
private theorem dotLink {r : Rule} {c : Nat} {e : Tree} {d t : Token} {rest : List Token} {o : Reading}
    (hd : r = .memberExpression ∧ d.terminal = .dot ∨ r = .attributeExpression ∧ d.terminal = .percent)
    (ht : t.terminal.isName = true ∨ t.terminal.isKeyword = true) (hc : c ≤ n) (hrest : rest ≠ [])
    (h : Reads n (.links linkAhead link (c + 1)) [.branch r [e, .leaf d, .leaf t]] rest o) :
    Reads n (.links linkAhead link c) [e] (d :: t :: rest) o := by
  have hmember : TokenClass.member.accepts t = true := by simpa [TokenClass.accepts] using ht
  have hahead : Lookahead.holds linkAhead (d :: t :: rest) = true := by
    rcases hd with ⟨_, hd⟩ | ⟨_, hd⟩ <;>
      simpa [linkAhead, Lookahead.holds, Cursor.sees, Cursor.fits, Cursor.peek, hd, TokenClass.accepts] using ht
  have hend : t.terminal ≠ .endOfInput := TokenClass.ne_endOfInput (k := .member) rfl hmember
  have hlt : rest.length < (d :: t :: rest).length := by
    simp only [List.length_cons]
    omega
  refine .linksMore hahead hc ?_ hlt h
  have hplace := Tree.ofRule_cons r e [.leaf d, .leaf t] (placeOf rest)
  rcases hd with ⟨rfl, hd⟩ | ⟨rfl, hd⟩
  · refine .nextYes (by simp [hd]) (.node ?_ (by rw [← hplace]))
    exact .seq .left (.seq (terminal hd (by simp) (by simp)) (token hmember hend hrest) rfl) rfl
  · refine .nextNo (by simp [hd]) (.nextYes (by simp [hd]) (.node ?_ (by rw [← hplace])))
    exact .seq .left (.seq (terminal hd (by simp) (by simp)) (token hmember hend hrest) rfl) rfl

/-- Arguments as the next link. -/
private theorem callLink {c : Nat} {e as : Tree} {p : Token} {ps rest : List Token} {o : Reading}
    (hp : p.terminal = .leftParen) (has : Reads n (Pattern.call .arguments) [e] (p :: ps ++ rest) (some ([as], rest)))
    (hc : c ≤ n) (h : Reads n (.links linkAhead link (c + 1)) [.branch .methodCall [e, as]] rest o) :
    Reads n (.links linkAhead link c) [e] (p :: ps ++ rest) o := by
  have hahead : Lookahead.holds linkAhead (p :: ps ++ rest) = true := by
    simp [linkAhead, Lookahead.holds, Cursor.sees, Cursor.fits, Cursor.peek, hp, TokenClass.accepts]
  have hlt : rest.length < (p :: ps ++ rest).length := by
    simp only [List.cons_append, List.length_cons, List.length_append]
    omega
  refine .linksMore hahead hc ?_ hlt h
  refine .nextNo (by simp [hp]) (.nextNo (by simp [hp]) (.node (.seq .left has rfl) ?_))
  rw [← Tree.ofRule_cons _ _ _ (placeOf rest)]
  rfl

end Reads

open Pattern in
/-- A reference is a primary. -/
private theorem Phrase.Readable.ofReference {e : Tree} (he : Derives .reference e) (h : Phrase.reference.Readable e) :
    (Phrase.expression 9).Readable e := by
  obtain ⟨t, ts, hts, ht⟩ := he.starts
  obtain ⟨c, _, h⟩ := h
  intro n l rest hn hrest
  have hread := h n l rest _ (by simp only [heightOf] at hn; omega) hrest.ne_nil (Reads.noLink hrest)
  refine .nextNo ?_ (.nextNo ?_ hread)
  all_goals
    rw [hts]
    simp only [Phrase.starts, Bool.or_eq_true, beq_iff_eq] at ht
    rcases ht with ht | ht
    · cases hterm : t.terminal <;> simp [hterm, Terminal.isName] at ht <;> simp [TokenClass.accepts, hterm]
    · simp [TokenClass.accepts, ht]

/-! ### Arguments and lists -/

namespace Reads

open Pattern

/-- Items with commas between them, in front of a closing bracket. -/
private theorem commas {n : Nat} {l : List Tree} {item : Pattern} {a : Tree} {more : List (Token × Tree)} {c : Token}
    {rest : List Token} {G : List Token → Prop} (ha : ∀ us, G us → Reads n item l (a.tokens ++ us) (some ([a], us)))
    (hmore : ∀ p ∈ more, ∀ us, G us → Reads n item l (p.2.tokens ++ us) (some ([p.2], us)))
    (hcommas : ∀ p ∈ more, p.1.terminal = .comma) (hc : c.terminal = .rightParen)
    (hG : ∀ t us, t.terminal = .comma ∨ t.terminal = .rightParen → G (t :: us)) :
    Reads n (commaList item) l (a.tokens ++ (Tree.leaves (Tree.joined more) ++ c :: rest))
      (some (a :: Tree.joined more, c :: rest)) := by
  have hmany : Reads n (Pattern.many (.seq (.terminal .comma) item)) l (Tree.leaves (Tree.joined more) ++ c :: rest)
      (some (Tree.joined more, c :: rest)) := by
    refine operands (G := G) ?_ hmore ?_ (hG c rest (.inr hc)) (by simp) (terminalNot (by simp [hc]))
    · exact fun p hp us hus => terminal (hcommas p hp) (by simp) hus
    · exact fun p hp us => hG p.1 us (.inl (hcommas p hp))
  have hfirst : G (Tree.leaves (Tree.joined more) ++ c :: rest) := by
    cases more with
    | nil => exact hG c rest (.inr hc)
    | cons p more => simpa using hG p.1 _ (.inl (hcommas p (by simp)))
  exact .seq (ha _ hfirst) hmany rfl

end Reads

private theorem Stops.of_separator {t : Token} (ht : t.terminal = .comma ∨ t.terminal = .rightParen) (k : Nat)
    (ts : List Token) : Stops k (t :: ts) := by
  have hall : ∀ a : Terminal, a = .comma ∨ a = .rightParen → ∀ j < 10, 0 ≤ j → a ∉ (Pattern.extending j).1 := by
    rintro a (rfl | rfl) <;> decide
  rcases ht with ht | ht <;>
    exact (Stops.of_terminal ht (by decide) (hall _ (by simp)) ts).mono (by omega)

namespace Phrase.Readable

open Pattern

private theorem noArguments {o c : Token} (ho : o.terminal = .leftParen) (hc : c.terminal = .rightParen) :
    Phrase.arguments.Readable (.branch .arguments [.leaf o, .leaf c]) := by
  intro n l rest hn hrest
  simp only [Tree.levels_branch, Tree.levelsAll_cons, Tree.levels] at hn
  obtain ⟨m, rfl⟩ : ∃ m, n = m + 1 := ⟨n - 1, by omega⟩
  have hinner : Reads m (.ifNext [[.oneOf [.rightParen]]] .empty (commaList (.call .argument)) : Pattern) []
      ([] ++ c :: rest) (some ([], c :: rest)) := .nextYes (by simp [hc]) .empty
  simpa using Reads.nodeOf rfl (Reads.bracketed ho hinner hc hrest)

private theorem someArguments {o c : Token} {a : Tree} {more : List (Token × Tree)} (ho : o.terminal = .leftParen)
    (hd : Derives .argument a) (ha : Phrase.argument.Readable a) (hcommas : ∀ p ∈ more, p.1.terminal = .comma)
    (hmore : ∀ p ∈ more, Phrase.argument.Readable p.2) (hc : c.terminal = .rightParen) :
    Phrase.arguments.Readable (.branch .arguments (.leaf o :: a :: (Tree.joined more ++ [.leaf c]))) := by
  intro n l rest hn hrest
  obtain ⟨t, ts, hts, ht⟩ := hd.starts
  have hclose : t.terminal ≠ .rightParen := by
    intro htn
    simp [Phrase.starts, Token.startsLevel, htn, Terminal.isName] at ht
  simp only [Tree.levels_branch, Tree.levelsAll_cons, Tree.levelsAll_append] at hn
  obtain ⟨m, rfl⟩ : ∃ m, n = m + 1 := ⟨n - 1, by have := a.levels_pos; omega⟩
  have hlist : Reads m (commaList (.call .argument)) [] (a.tokens ++ (Tree.leaves (Tree.joined more) ++ c :: rest))
      (some (a :: Tree.joined more, c :: rest)) := by
    refine Reads.commas (G := fun us => Stops 0 us ∧ NoArrow us) ?_ ?_ hcommas hc ?_
    · exact fun us hus => ha m [] us (by omega) hus.1 hus.2
    · exact fun p hp us hus => hmore p hp m [] us (by have := Tree.levels_le_joined hp; omega) hus.1 hus.2
    · intro t us ht
      refine ⟨.of_separator ht 0 us, .cons ?_ us⟩
      rcases ht with ht | ht <;> simp [ht]
  have hinner : Reads m (.ifNext [[.oneOf [.rightParen]]] .empty (commaList (.call .argument)) : Pattern) []
      ((a.tokens ++ Tree.leaves (Tree.joined more)) ++ c :: rest) (some (a :: Tree.joined more, c :: rest)) := by
    refine .nextNo ?_ (by simpa using hlist)
    simp [hts, hclose]
  have hnode := Reads.nodeOf (r := .arguments) (l := l) rfl (Reads.bracketed ho hinner hc hrest)
  simpa using hnode

private theorem star {t : Token} (ht : t.terminal = .times) :
    Phrase.argument.Readable (.branch .argument [.leaf t]) := by
  intro n l rest hn hrest _
  simp only [Tree.levels_branch, Tree.levelsAll_cons, Tree.levels] at hn
  obtain ⟨m, rfl⟩ : ∃ m, n = m + 1 := ⟨n - 1, by omega⟩
  have hinner : Reads m Rule.argument.body [] (t :: rest) (some ([.leaf t], rest)) :=
    .nextYes (by simp [ht]) (Reads.terminal ht (by simp) hrest.ne_nil)
  simpa using Reads.nodeOf rfl hinner

private theorem named {t a : Token} {e : Tree} (ht : t.terminal.isName = true) (ha : a.terminal = .arrow)
    (he : (Phrase.expression 0).Readable e) : Phrase.argument.Readable (.branch .argument [.leaf t, .leaf a, e]) := by
  intro n l rest hn hrest _
  simp only [Tree.levels_branch, Tree.levelsAll_cons] at hn
  obtain ⟨m, rfl⟩ : ∃ m, n = m + 1 := ⟨n - 1, by have := e.levels_pos; omega⟩
  have htimes : t.terminal ≠ .times := by
    intro h
    simp [h, Terminal.isName] at ht
  have hname : TokenClass.name.accepts t = true := ht
  have hend : t.terminal ≠ .endOfInput := TokenClass.ne_endOfInput (k := .name) rfl hname
  have hahead : Lookahead.holds [[.name, .oneOf [.arrow]]] (t :: a :: (e.tokens ++ rest)) = true := by
    simp [Lookahead.holds, Cursor.sees, Cursor.fits, Cursor.peek, hname, ha]
  have hexpr := he m [] rest (by simp only [heightOf]; omega) hrest
  have hinner : Reads m Rule.argument.body [] (t :: a :: (e.tokens ++ rest)) (some ([.leaf t, .leaf a, e], rest)) := by
    have hlead : Reads m (sequence [identifier, terminal .arrow]) [] (t :: a :: (e.tokens ++ rest))
        (some ([.leaf t, .leaf a], e.tokens ++ rest)) :=
      .seq (Reads.token hname hend (by simp)) (Reads.terminal ha (by simp) (by simp [hrest.ne_nil])) rfl
    exact .nextNo (by simpa using htimes) (.seq (.nextYes hahead hlead) hexpr rfl)
  simpa using Reads.nodeOf rfl hinner

private theorem positional {e : Tree} (hd : Derives (.expression 0) e) (he : (Phrase.expression 0).Readable e) :
    Phrase.argument.Readable (.branch .argument [e]) := by
  intro n l rest hn hrest harrow
  obtain ⟨t, ts, hts, ht⟩ := hd.starts
  have htimes : t.terminal ≠ .times := by
    intro h
    simp [Phrase.starts, Token.startsLevel, h, Terminal.isName] at ht
  simp only [Tree.levels_branch, Tree.levelsAll_cons] at hn
  obtain ⟨m, rfl⟩ : ∃ m, n = m + 1 := ⟨n - 1, by have := e.levels_pos; omega⟩
  have hexpr := he m [] rest (by simp only [heightOf]; omega) hrest
  have hunnamed := hd.unnamed (by simp) (by simp) harrow
  have hahead : Lookahead.holds [[.name, .oneOf [.arrow]]] (e.tokens ++ rest) = false := by
    obtain ⟨u, us, rfl, _⟩ := hrest
    rw [hts] at hunnamed ⊢
    cases hname : t.terminal.isName with
    | false => simp [Lookahead.holds, Cursor.sees, Cursor.fits, Cursor.peek, TokenClass.accepts, hname]
    | true =>
      have hne := hunnamed t (ts ++ u :: us) rfl hname
      cases ts with
      | nil =>
        have := hne u us rfl
        simpa [Lookahead.holds, Cursor.sees, Cursor.fits, Cursor.peek, TokenClass.accepts, hname] using this
      | cons v vs =>
        have := hne v (vs ++ u :: us) rfl
        simpa [Lookahead.holds, Cursor.sees, Cursor.fits, Cursor.peek, TokenClass.accepts, hname] using this
  have hinner : Reads m Rule.argument.body [] (e.tokens ++ rest) (some ([e], rest)) := by
    refine .nextNo ?_ (.seq (.nextNo hahead .empty) hexpr rfl)
    rw [hts]
    simpa using htimes
  simpa using Reads.nodeOf rfl hinner

/-! ### Comparisons -/

/-- What may follow the left operand of a comparison. -/
def tailChoice : Pattern := choice (comparisonTails.map (fun t => comparisonWith t.1 t.2) ++ [.left])

/-- A comparison is read if its tail is, behind the operand. -/
private theorem comparing {r : Rule} {e : Tree} {ys : List Tree} (he : (Phrase.expression 4).Readable e)
    (hstop : ∀ rest, Stops 4 (Tree.leaves ys ++ rest))
    (htail : ∀ m rest, 8 * Tree.levelsAll ys + 2 ≤ m → Stops 3 rest →
      Reads (m + 2) tailChoice [e] (Tree.leaves ys ++ rest) (some ([.branch r (e :: ys)], rest))) :
    (Phrase.expression 3).Readable (.branch r (e :: ys)) := by
  intro n l rest hn hrest
  simp only [Tree.levels_branch, Tree.levelsAll_cons, heightOf] at hn
  obtain ⟨m, rfl⟩ : ∃ m, n = m + 2 := ⟨n - 2, by omega⟩
  have hoperand := he (m + 2) l (Tree.leaves ys ++ rest) (by simp only [heightOf]; omega) (hstop rest)
  have hcompare := htail m rest (by omega) hrest
  rw [Tree.tokens_branch, Tree.leaves_cons, List.append_assoc]
  exact .onto hoperand hcompare

end Phrase.Readable

/-- `NOT` and the words of the comparisons stop an operand. -/
private theorem Stops.perhaps {no : Option Token} (hno : ∀ t ∈ no, t.terminal = .keyword .NOT) {ts : List Token}
    (hts : Stops 4 ts) : Stops 4 (no.toList ++ ts) := by
  cases no with
  | none => exact hts
  | some t => exact .of_terminal (hno t rfl) (by decide) (by decide) ts

private theorem Stops.of_relational {t : Token} (ht : t.terminal ∈ Terminal.relational) (ts : List Token) :
    Stops 4 (t :: ts) := by
  have hall : ∀ a ∈ Terminal.relational, a ≠ .identifier ∧ ∀ j < 10, 4 ≤ j → a ∉ (Pattern.extending j).1 := by
    decide
  exact .of_terminal rfl (hall _ ht).1 (hall _ ht).2 ts

namespace Phrase.Readable

open Pattern

variable {e f : Tree} {no : Option Token} {w : Token}

private theorem relation {o : Token} (he : (Phrase.expression 4).Readable e) (ho : o.terminal ∈ Terminal.relational)
    (hf : (Phrase.expression 4).Readable f) :
    (Phrase.expression 3).Readable (.branch .comparisonExpression [e, .branch .relationalOperator [.leaf o], f]) := by
  refine comparing he (fun rest => by simpa using Stops.of_relational ho _) ?_
  intro m rest hm hrest
  simp only [Tree.levelsAll_cons] at hm
  have hoperator : Reads (m + 1) (Pattern.call .relationalOperator) [e] (o :: (f.tokens ++ rest))
      (some ([.branch .relationalOperator [.leaf o]], f.tokens ++ rest)) := by
    refine Reads.nodeOf rfl (Reads.token ?_ ?_ (by simp [hrest.ne_nil]))
    · simpa [TokenClass.accepts, Terminal.relational] using ho
    · intro h
      rw [h] at ho
      revert ho
      decide
  have hoperand := hf (m + 1) [e] rest (by simp only [heightOf]; omega) (hrest.mono (by omega))
  have hread : Reads (m + 2) tailChoice [e] (o :: (f.tokens ++ rest)) _ :=
    .orFirst (Reads.comparisonYes (.seq hoperator hoperand rfl))
  simpa using hread

private theorem collection {of : Option Token} (he : (Phrase.expression 4).Readable e)
    (hno : ∀ t ∈ no, t.terminal = .keyword .NOT) (hw : w.isWord "MEMBER" = true ∨ w.isWord "SUBMULTISET" = true)
    (hof : ∀ t ∈ of, t.terminal = .keyword .OF) (hd : Derives (.expression 4) f)
    (hf : (Phrase.expression 4).Readable f) :
    (Phrase.expression 3).Readable
      (.branch .comparisonExpression (e :: (Tree.perhaps no ++ .leaf w :: (Tree.perhaps of ++ [f])))) := by
  have hident : w.terminal = .identifier := by
    rcases hw with hw | hw <;> exact Token.identifier_of_isWord hw
  have hstop : ∀ ts, Stops 4 (w :: ts) := by
    rcases hw with hw | hw <;> exact Stops.of_word hw (by decide)
  obtain ⟨t, ts, hts, ht⟩ := hd.starts
  have hnotOf : t.terminal ≠ .keyword .OF := by
    intro h
    simp [Phrase.starts, Token.startsLevel, h, Terminal.isName] at ht
  refine comparing he (fun rest => by simpa using Stops.perhaps hno (hstop _)) ?_
  intro m rest hm hrest
  simp only [Tree.levelsAll_append, Tree.levelsAll_cons] at hm
  have hoperand := hf (m + 1) [e] rest (by simp only [heightOf]; omega) (hrest.mono (by omega))
  have hmaybeOf : Reads (m + 1) (maybeKeyword .OF) [e] (of.toList ++ (f.tokens ++ rest))
      (some (Tree.perhaps of, f.tokens ++ rest)) := by
    rw [hts]
    exact Reads.perhaps hof hnotOf
  have hword : Reads (m + 1) (.ifNext [[.word "MEMBER"]] (word "MEMBER") (word "SUBMULTISET") : Pattern) [e]
      (w :: (of.toList ++ (f.tokens ++ rest))) (some ([.leaf w], of.toList ++ (f.tokens ++ rest))) := by
    cases hmember : w.isWord "MEMBER" with
    | true => exact .nextYes (by simpa using hmember) (Reads.word hmember (by simp [hrest.ne_nil]))
    | false =>
      rw [hmember] at hw
      refine .nextNo (by simpa using hmember) (Reads.word ?_ (by simp [hrest.ne_nil]))
      simpa using hw
  have htail : Reads (m + 1) collectionTail [e] (no.toList ++ w :: (of.toList ++ (f.tokens ++ rest)))
      (some (Tree.perhaps no ++ ([.leaf w] ++ (Tree.perhaps of ++ [f])), rest)) :=
    .seq (Reads.perhaps hno (by simp [hident])) (.seq hword (.seq hmaybeOf hoperand rfl) rfl) rfl
  have hrelational : w.terminal ∉ Terminal.relational := by
    rw [hident]
    decide
  have hread : Reads (m + 2) tailChoice [e] _ _ :=
    .orSecond (Reads.comparisonNot (Reads.relationalNot hno hrelational)) (.orFirst (Reads.comparisonYes htail))
  simpa using hread

private theorem isNull {i u : Token} (he : (Phrase.expression 4).Readable e) (hi : i.terminal = .keyword .IS)
    (hno : ∀ t ∈ no, t.terminal = .keyword .NOT) (hu : u.terminal = .keyword .NULL) :
    (Phrase.expression 3).Readable (.branch .isNullExpression (e :: .leaf i :: (Tree.perhaps no ++ [.leaf u]))) := by
  refine comparing he (fun rest => by simpa using Stops.of_terminal hi (by decide) (by decide) _) ?_
  intro m rest hm hrest
  have htail : Reads (m + 1) isNullTail [e] (i :: (no.toList ++ u :: rest))
      (some ([.leaf i] ++ (Tree.perhaps no ++ [.leaf u]), rest)) :=
    .seq (Reads.terminal hi (by simp) (by simp))
      (.seq (Reads.perhaps hno (by simp [hu])) (Reads.terminal hu (by simp) hrest.ne_nil) rfl) rfl
  have hnone : ∀ t ∈ (none : Option Token), t.terminal = .keyword .NOT := by simp
  have hword : ∀ w, i.isWord w = false := by simp [Token.isWord, hi]
  have hread : Reads (m + 2) tailChoice [e] (i :: (no.toList ++ u :: rest)) _ :=
    .orSecond (Reads.comparisonNot (Reads.relationalNot hnone (by rw [hi]; decide))) <|
    .orSecond (Reads.comparisonNot (Reads.collectionNot hnone (by simp [hi]) (hword _) (hword _))) <|
    .orFirst (Reads.comparisonYes htail)
  simpa using hread

/-- The tails that are tried before `LIKE` are refused at a keyword that starts none of them. -/
private theorem laterTail {n : Nat} {k : Keyword} {ts : List Token} {o : Reading}
    (hno : ∀ t ∈ no, t.terminal = .keyword .NOT) (hw : w.terminal = .keyword k) (hk : k ≠ .IS) (hnot : k ≠ .NOT)
    (h : Reads (n + 2) (.orElse (comparisonWith .likeExpression likeTail)
      (.orElse (comparisonWith .betweenExpression betweenTail)
        (.orElse (comparisonWith .inExpression inTail) (choice [.left]))) : Pattern) [e] (no.toList ++ w :: ts) o) :
    Reads (n + 2) tailChoice [e] (no.toList ++ w :: ts) o := by
  have hword : ∀ v, w.isWord v = false := by simp [Token.isWord, hw]
  refine .orSecond (Reads.comparisonNot (Reads.relationalNot hno (by simp [hw, Terminal.relational]))) ?_
  refine .orSecond (Reads.comparisonNot (Reads.collectionNot hno (by simpa [hw] using hnot) (hword _) (hword _))) ?_
  exact .orSecond (Reads.comparisonNot (Reads.isNullNot hno (by simpa [hw] using hk))) h

private theorem like {escape : Option (Token × Tree)} (he : (Phrase.expression 4).Readable e)
    (hno : ∀ t ∈ no, t.terminal = .keyword .NOT) (hw : w.terminal = .keyword .LIKE)
    (hf : (Phrase.expression 4).Readable f) (hword : ∀ p ∈ escape, p.1.isWord "ESCAPE" = true)
    (hescape : ∀ p ∈ escape, (Phrase.expression 4).Readable p.2) :
    (Phrase.expression 3).Readable
      (.branch .likeExpression (e :: (Tree.perhaps no ++ .leaf w :: f :: Tree.joined escape.toList))) := by
  have hstop : ∀ ts, Stops 4 (w :: ts) := Stops.of_terminal hw (by decide) (by decide)
  refine comparing he (fun rest => by simpa using Stops.perhaps hno (hstop _)) ?_
  intro m rest hm hrest
  simp only [Tree.levelsAll_append, Tree.levelsAll_cons] at hm
  have hend : Reads (m + 1) (opt (sequence [word "ESCAPE", operand])) [e]
      (Tree.leaves (Tree.joined escape.toList) ++ rest) (some (Tree.joined escape.toList, rest)) := by
    cases escape with
    | none =>
      obtain ⟨t, us, rfl, ht⟩ := hrest
      have ht := ht 3 (by omega)
      simp only [Token.extendsLevel, extending, Bool.or_eq_false_iff, List.any_cons] at ht
      exact .orSecond (.seqFirst (.takeNot ht.2.2.2.1)) .empty
    | some p =>
      have hp := hescape p rfl (m + 1) [e] rest ?_ (hrest.mono (by omega))
      · have hmark : Reads (m + 1) (word "ESCAPE") [e] (p.1 :: (p.2.tokens ++ rest)) (some ([.leaf p.1], _)) :=
          Reads.word (hword p rfl) (by simp [hrest.ne_nil])
        have hread : Reads (m + 1) (opt (sequence [word "ESCAPE", operand])) [e] (p.1 :: (p.2.tokens ++ rest)) _ :=
          .orFirst (.seq hmark hp rfl)
        simpa using hread
      · simp only [Option.toList, Tree.joined_cons, Tree.levelsAll_cons] at hm
        simp only [heightOf]
        omega
  have hfollow : Stops 4 (Tree.leaves (Tree.joined escape.toList) ++ rest) := by
    cases escape with
    | none => exact hrest.mono (by omega)
    | some p => simpa using Stops.of_word (hword p rfl) (by decide) _
  have hoperand := hf (m + 1) [e] _ (by simp only [heightOf]; omega) hfollow
  have htail : Reads (m + 1) likeTail [e]
      (no.toList ++ w :: (f.tokens ++ (Tree.leaves (Tree.joined escape.toList) ++ rest)))
      (some (Tree.perhaps no ++ ([.leaf w] ++ ([f] ++ Tree.joined escape.toList)), rest)) :=
    .seq (Reads.perhaps hno (by simp [hw]))
      (.seq (Reads.terminal hw (by simp) (by simp [hrest.ne_nil])) (.seq hoperand hend rfl) rfl) rfl
  simpa using laterTail hno hw (by simp) (by simp) (.orFirst (Reads.comparisonYes htail))

private theorem between {a : Token} {g : Tree} (he : (Phrase.expression 4).Readable e)
    (hno : ∀ t ∈ no, t.terminal = .keyword .NOT) (hw : w.terminal = .keyword .BETWEEN)
    (hf : (Phrase.expression 4).Readable f) (ha : a.terminal = .keyword .AND)
    (hg : (Phrase.expression 4).Readable g) :
    (Phrase.expression 3).Readable
      (.branch .betweenExpression (e :: (Tree.perhaps no ++ [.leaf w, f, .leaf a, g]))) := by
  have hstop : ∀ ts, Stops 4 (w :: ts) := Stops.of_terminal hw (by decide) (by decide)
  refine comparing he (fun rest => by simpa using Stops.perhaps hno (hstop _)) ?_
  intro m rest hm hrest
  simp only [Tree.levelsAll_append, Tree.levelsAll_cons] at hm
  have hlow := hf (m + 1) [e] (a :: (g.tokens ++ rest)) (by simp only [heightOf]; omega)
    (Stops.of_terminal ha (by decide) (by decide) _)
  have hhigh := hg (m + 1) [e] rest (by simp only [heightOf]; omega) (hrest.mono (by omega))
  have htail : Reads (m + 1) betweenTail [e] (no.toList ++ w :: (f.tokens ++ a :: (g.tokens ++ rest)))
      (some (Tree.perhaps no ++ ([.leaf w] ++ ([f] ++ ([.leaf a] ++ [g]))), rest)) :=
    .seq (Reads.perhaps hno (by simp [hw])) (.seq (Reads.terminal hw (by simp) (by simp)) (.seq hlow
      (.seq (Reads.terminal ha (by simp) (by simp [hrest.ne_nil])) hhigh rfl) rfl) rfl) rfl
  have hlike : Reads (m + 1) likeTail [e] (no.toList ++ w :: (f.tokens ++ a :: (g.tokens ++ rest))) none :=
    Reads.likeNot hno (by simp [hw]) (by simp [hw])
  simpa using laterTail hno hw (by simp) (by simp)
    (.orSecond (Reads.comparisonNot hlike) (.orFirst (Reads.comparisonYes htail)))

private theorem inList {o c : Token} {more : List (Token × Tree)} (he : (Phrase.expression 4).Readable e)
    (hno : ∀ t ∈ no, t.terminal = .keyword .NOT) (hw : w.terminal = .keyword .IN) (ho : o.terminal = .leftParen)
    (hd : Derives (.expression 0) f) (hf : (Phrase.expression 0).Readable f)
    (hcommas : ∀ p ∈ more, p.1.terminal = .comma) (hmore : ∀ p ∈ more, (Phrase.expression 0).Readable p.2)
    (hc : c.terminal = .rightParen) :
    (Phrase.expression 3).Readable
      (.branch .inExpression
        (e :: (Tree.perhaps no ++ .leaf w :: .leaf o :: f :: (Tree.joined more ++ [.leaf c])))) := by
  have hstop : ∀ ts, Stops 4 (w :: ts) := Stops.of_terminal hw (by decide) (by decide)
  refine comparing he (fun rest => by simpa using Stops.perhaps hno (hstop _)) ?_
  intro m rest hm hrest
  simp only [Tree.levelsAll_append, Tree.levelsAll_cons] at hm
  have hlist : Reads (m + 1) (commaList Pattern.expression) [e]
      (f.tokens ++ (Tree.leaves (Tree.joined more) ++ c :: rest)) (some (f :: Tree.joined more, c :: rest)) := by
    refine Reads.commas (G := Stops 0) ?_ ?_ hcommas hc (fun t us ht => .of_separator ht 0 us)
    · exact fun us hus => hf (m + 1) [e] us (by simp only [heightOf]; omega) hus
    · intro p hp us hus
      have := Tree.levels_le_joined hp
      exact hmore p hp (m + 1) [e] us (by simp only [heightOf]; omega) hus
  obtain ⟨t, ts, hts, ht⟩ := hd.starts
  have hinner : Reads (m + 1) (queryOr (commaList Pattern.expression)) [e]
      ((f.tokens ++ Tree.leaves (Tree.joined more)) ++ c :: rest) (some (f :: Tree.joined more, c :: rest)) := by
    rw [List.append_assoc]
    rw [hts] at hlist ⊢
    exact Reads.noQuery ht hlist
  have htail : Reads (m + 1) inTail [e]
      (no.toList ++ w :: o :: ((f.tokens ++ Tree.leaves (Tree.joined more)) ++ c :: rest))
      (some (Tree.perhaps no ++ ([.leaf w] ++ .leaf o :: ((f :: Tree.joined more) ++ [.leaf c])), rest)) :=
    .seq (Reads.perhaps hno (by simp [hw])) (.seq (Reads.terminal hw (by simp) (by simp))
      (Reads.bracketed ho hinner hc hrest.ne_nil) rfl) rfl
  have hlike : Reads (m + 1) likeTail [e]
      (no.toList ++ w :: o :: ((f.tokens ++ Tree.leaves (Tree.joined more)) ++ c :: rest)) none :=
    Reads.likeNot hno (by simp [hw]) (by simp [hw])
  have hbetween : Reads (m + 1) betweenTail [e]
      (no.toList ++ w :: o :: ((f.tokens ++ Tree.leaves (Tree.joined more)) ++ c :: rest)) none :=
    Reads.betweenNot hno (by simp [hw]) (by simp [hw])
  simpa using laterTail hno hw (by simp) (by simp) (.orSecond (Reads.comparisonNot hlike)
    (.orSecond (Reads.comparisonNot hbetween) (.orFirst (Reads.comparisonYes htail))))

/-! ### Brackets, signs and negations -/

private theorem bracketed {o c : Token} (ho : o.terminal = .leftParen) (hd : Derives (.expression 0) e)
    (he : (Phrase.expression 0).Readable e) (hc : c.terminal = .rightParen) :
    (Phrase.expression 9).Readable (.branch .bracketedExpression [.leaf o, e, .leaf c]) := by
  intro n l rest hn hrest
  simp only [Tree.levels_branch, Tree.levelsAll_cons, heightOf] at hn
  have hpos := e.levels_pos
  obtain ⟨m, rfl⟩ : ∃ m, n = m + 1 := ⟨n - 1, by omega⟩
  obtain ⟨t, ts, hts, ht⟩ := hd.starts
  have hexpr := he m [] (c :: rest) (by simp only [heightOf]; omega) (.of_separator (.inr hc) 0 rest)
  have hinner : Reads m (queryOr Pattern.expression) [] (e.tokens ++ c :: rest) (some ([e], c :: rest)) := by
    rw [hts] at hexpr ⊢
    exact Reads.noQuery ht hexpr
  have hcall := Reads.nodeOf (r := .bracketedExpression) (l := l) rfl (Reads.bracketed ho hinner hc hrest.ne_nil)
  have hread : Reads (m + 1) (level 9) l (o :: (e.tokens ++ c :: rest)) _ :=
    .nextNo (by simp [TokenClass.accepts, ho]) (.nextYes (by simp [ho]) hcall)
  simpa using hread

private theorem unary {o : Token} (ho : o.terminal = .plus ∨ o.terminal = .minus)
    (he : (Phrase.expression 7).Readable e) :
    (Phrase.expression 7).Readable (.branch .unaryExpression [.leaf o, e]) := by
  intro n l rest hn hrest
  simp only [Tree.levels_branch, Tree.levelsAll_cons, heightOf] at hn
  have hpos := e.levels_pos
  obtain ⟨m, rfl⟩ : ∃ m, n = m + 1 := ⟨n - 1, by omega⟩
  have hsign : (TokenClass.oneOf [.plus, .minus]).accepts o = true := by simpa [TokenClass.accepts] using ho
  have hoperand := he m [] rest (by simp only [heightOf]; omega) hrest
  have hbody : Reads m Rule.unaryExpression.body [] (o :: (e.tokens ++ rest)) (some ([.leaf o, e], rest)) := by
    refine .seq (Reads.token hsign ?_ (by simp [hrest.ne_nil])) hoperand rfl
    rcases ho with ho | ho <;> simp [ho]
  have hread : Reads (m + 1) (level 7) l (o :: (e.tokens ++ rest)) _ :=
    .nextYes (by simpa using hsign) (Reads.nodeOf rfl hbody)
  simpa using hread

private theorem negated {o : Token} (ho : o.terminal = .keyword .NOT) (he : (Phrase.expression 2).Readable e) :
    (Phrase.expression 2).Readable (.branch .notExpression [.leaf o, e]) := by
  intro n l rest hn hrest
  simp only [Tree.levels_branch, Tree.levelsAll_cons, heightOf] at hn
  obtain ⟨m, rfl⟩ : ∃ m, n = m + 1 := ⟨n - 1, by omega⟩
  have hoperand := he m [] rest (by simp only [heightOf]; omega) hrest
  have hbody : Reads m Rule.notExpression.body [] (o :: (e.tokens ++ rest)) (some ([.leaf o, e], rest)) :=
    .seq (Reads.terminal ho (by simp) (by simp [hrest.ne_nil])) hoperand rfl
  have hread : Reads (m + 1) (level 2) l (o :: (e.tokens ++ rest)) _ :=
    .nextYes (by simp [ho]) (Reads.nodeOf rfl hbody)
  simpa using hread

private theorem literal {r : Rule} {t : Token} (ht : r.isLiteral t = true) :
    (Phrase.expression 9).Readable (.branch r [.leaf t]) := by
  intro n l rest hn hrest
  simp only [Tree.levels_branch, Tree.levelsAll_cons, Tree.levels] at hn
  obtain ⟨m, rfl⟩ : ∃ m, n = m + 1 := ⟨n - 1, by omega⟩
  have hread : Reads (m + 1) (level 9) l (t :: rest) _ := Reads.ofLiteral ht hrest.ne_nil
  simpa using hread

/-! ### References -/

private theorem plainVariable {t : Token} (ht : t.terminal.isName = true) :
    Phrase.reference.Readable (.branch .variableName [.leaf t]) := by
  refine ⟨0, by omega, ?_⟩
  intro n l rest o hn hrest hlinks
  simp only [Tree.levels_branch, Tree.levelsAll_cons, Tree.levels] at hn
  obtain ⟨m, rfl⟩ : ∃ m, n = m + 1 := ⟨n - 1, by omega⟩
  have hname : TokenClass.name.accepts t = true := ht
  have hend : t.terminal ≠ .endOfInput := TokenClass.ne_endOfInput (k := .name) rfl hname
  have hcolon : t.terminal ≠ .colon := by
    intro h
    simp [h, Terminal.isName] at ht
  have hbody : Reads m Rule.variableName.body [] (t :: rest) (some ([.leaf t], rest)) := Reads.token hname hend hrest
  have hread : Reads (m + 1) Pattern.reference l (t :: rest) o :=
    .chain (.nextNo (by simpa using hcolon) (Reads.nodeOf rfl hbody)) hlinks
  simpa using hread

private theorem bindVariable {c t : Token} (hc : c.terminal = .colon)
    (ht : t.terminal.isName = true ∨ t.terminal = .number) :
    Phrase.reference.Readable (.branch .bindVariable [.leaf c, .leaf t]) := by
  refine ⟨0, by omega, ?_⟩
  intro n l rest o hn hrest hlinks
  simp only [Tree.levels_branch, Tree.levelsAll_cons, Tree.levels] at hn
  obtain ⟨m, rfl⟩ : ∃ m, n = m + 1 := ⟨n - 1, by omega⟩
  have hname : (TokenClass.oneOf [.identifier, .quotedIdentifier, .number]).accepts t = true := by
    rcases ht with ht | ht
    · cases hterm : t.terminal <;> simp [hterm, Terminal.isName] at ht <;> simp [TokenClass.accepts, hterm]
    · simp [TokenClass.accepts, ht]
  have hend : t.terminal ≠ .endOfInput :=
    TokenClass.ne_endOfInput (k := .oneOf [.identifier, .quotedIdentifier, .number]) rfl hname
  have hbody : Reads m Rule.bindVariable.body [] (c :: t :: rest) (some ([.leaf c, .leaf t], rest)) :=
    .seq (Reads.terminal hc (by simp) (by simp)) (Reads.token hname hend hrest) rfl
  have hread : Reads (m + 1) Pattern.reference l (c :: t :: rest) o :=
    .chain (.nextYes (by simp [hc]) (Reads.nodeOf rfl hbody)) hlinks
  simpa using hread

private theorem dotted {r : Rule} {d t : Token} (he : Phrase.reference.Readable e)
    (hd : r = .memberExpression ∧ d.terminal = .dot ∨ r = .attributeExpression ∧ d.terminal = .percent)
    (ht : t.terminal.isName = true ∨ t.terminal.isKeyword = true) :
    Phrase.reference.Readable (.branch r [e, .leaf d, .leaf t]) := by
  obtain ⟨c, hc, he⟩ := he
  have hpos := e.levels_pos
  refine ⟨c + 1, by simp only [Tree.levels_branch, Tree.levelsAll_cons]; omega, ?_⟩
  intro n l rest o hn hrest hlinks
  simp only [Tree.levels_branch, Tree.levelsAll_cons] at hn
  have hlink := Reads.dotLink hd ht (show c + 1 ≤ n by omega) hrest hlinks
  simpa using he n l (d :: t :: rest) o (by omega) (by simp) hlink

private theorem called {as : Tree} (he : Phrase.reference.Readable e) (hd : Derives .arguments as)
    (has : Phrase.arguments.Readable as) : Phrase.reference.Readable (.branch .methodCall [e, as]) := by
  obtain ⟨c, hc, he⟩ := he
  obtain ⟨p, ps, hps, hp⟩ := hd.starts
  have hparen : p.terminal = .leftParen := by simpa [Phrase.starts] using hp
  have hpos := e.levels_pos
  refine ⟨c + 1, by simp only [Tree.levels_branch, Tree.levelsAll_cons]; omega, ?_⟩
  intro n l rest o hn hrest hlinks
  simp only [Tree.levels_branch, Tree.levelsAll_cons] at hn
  have hargs := has n [e] rest (by omega) hrest
  rw [hps] at hargs
  have hlink := Reads.callLink hparen hargs (show c + 1 ≤ n by omega) hlinks
  rw [← hps] at hlink
  simpa using he n l (as.tokens ++ rest) o (by omega) (by simp [hrest]) hlink

end Phrase.Readable

/-! ### The main theorem -/

open Phrase.Readable in
/-- Every phrase is read from its tokens. -/
theorem Phrase.readable_of_derives {ph : Phrase} {e : Tree} (h : Derives ph e) : ph.Readable e := by
  induction h with
  | literal ht => exact literal ht
  | bracketed ho he hc ih => exact bracketed ho he ih hc
  | reference he ih => exact ofReference he ih
  | plainVariable ht => exact plainVariable ht
  | bindVariable hc ht => exact bindVariable hc ht
  | memberOf he hd ht ih => exact dotted ih (.inl ⟨rfl, hd⟩) ht
  | attributeOf he hd ht ih => exact dotted ih (.inr ⟨rfl, hd⟩) ht
  | callOf he has ih iha => exact called ih has iha
  | noArguments ho hc => exact noArguments ho hc
  | arguments ho ha hcommas hmore hc iha ihm => exact someArguments ho ha iha hcommas ihm hc
  | star ht => exact star ht
  | named ht ha he ih => exact named ht ha ih
  | positional he ih => exact positional he ih
  | tighter he ih => exact climb he ih
  | operators hr hk he hne hops hmore ih ihm => exact several hr hk ih hne hops ihm
  | unary ho he ih => exact unary ho ih
  | not ho he ih => exact negated ho ih
  | relation he ho hf ihe ihf => exact relation ihe ho ihf
  | collection he hno hw hof hf ihe ihf => exact collection ihe hno hw hof hf ihf
  | isNull he hi hno hu ih => exact isNull ih hi hno hu
  | like he hno hw hf hword hescape ihe ihf ihs => exact like ihe hno hw ihf hword ihs
  | between he hno hw hf ha hg ihe ihf ihg => exact between ihe hno hw ihf ha ihg
  | inList he hno hw ho hf hcommas hmore hc ihe ihf ihm => exact inList ihe hno hw ho hf ihf hcommas ihm hc

/-- The tokens of an expression tree are parsed as that tree, if eight levels of nesting are allowed for each level of
the tree. -/
theorem parseRule_of_derives (e : Tree) (he : Derives (.expression 0) e) (limits : Limits)
    (hdepth : 8 * e.levels ≤ limits.maxDepth) (hstack : limits.Ample) :
    ((Parser.ofTokens e.tokens limits).parseRule .orExpression).1 = .ok e := by
  have hread : ∀ u : Token, u.terminal = .endOfInput →
      Reads limits.maxDepth Rule.orExpression.root [] (e.tokens ++ [u]) (some ([e], [u])) := by
    intro u hu
    refine Phrase.readable_of_derives he limits.maxDepth [] [u] (by simp only [Pattern.heightOf]; omega) ?_
    exact .of_terminal hu (by decide) (by decide) []
  have hinner : ∀ t ∈ e.tokens, t.terminal ≠ .endOfInput := by
    have hts : Terminated (e.tokens ++ [.endAt default]) := ⟨_, List.getLast?_concat, rfl⟩
    obtain ⟨w, hw, hl⟩ := (hread (.endAt default) rfl).consumes (b := false) rfl rfl hts
    simp only [Tree.leaves_cons, Tree.leaves_nil, List.append_nil, Bool.false_eq_true, if_false,
      List.nil_append] at hl
    rw [hl]
    exact hw.inner
  obtain ⟨u, hu, hstream⟩ := Parser.tokens_ofTokens hinner limits
  exact Parser.parseRule_of_reads hstack (by rw [hstream]; exact hread u hu) hu

/-- `MOD mod MEMBER`: the first and the last word are names, the one between them is the operator. -/
theorem parseRule_of_derives_words :
    Derives (.expression 0) (.branch .multiplicativeExpression
      [.branch .variableName [.leaf (.bare .identifier "MOD")], .leaf (.bare .identifier "mod"),
       .branch .variableName [.leaf (.bare .identifier "MEMBER")]]) ∧
    ((Parser.ofTokens (Tree.branch .multiplicativeExpression
      [.branch .variableName [.leaf (.bare .identifier "MOD")], .leaf (.bare .identifier "mod"),
       .branch .variableName [.leaf (.bare .identifier "MEMBER")]]).tokens (.forDepth 32)).parseRule .orExpression).1 =
      .ok (.branch .multiplicativeExpression
        [.branch .variableName [.leaf (.bare .identifier "MOD")], .leaf (.bare .identifier "mod"),
         .branch .variableName [.leaf (.bare .identifier "MEMBER")]]) := by
  have hname : ∀ w, Derives (.expression 7) (.branch .variableName [.leaf (.bare .identifier w)]) := fun w =>
    .tighter (.tighter (.reference (.plainVariable rfl)))
  have hproduct : Derives (.expression 6) (.branch .multiplicativeExpression
      [.branch .variableName [.leaf (.bare .identifier "MOD")], .leaf (.bare .identifier "mod"),
       .branch .variableName [.leaf (.bare .identifier "MEMBER")]]) := by
    have hoperator : Rule.multiplicativeExpression.isOperator (.bare .identifier "mod") = true := by decide
    exact @Derives.operators _ _ _
      [(.bare .identifier "mod", .branch .variableName [.leaf (.bare .identifier "MEMBER")])] rfl rfl (hname "MOD")
      (by simp) (by simpa using hoperator) (by simpa using hname "MEMBER")
  have hderives := Derives.tighter (.tighter (.tighter (.tighter (.tighter (.tighter hproduct)))))
  exact ⟨hderives, parseRule_of_derives _ hderives (.forDepth 32) (by decide) (Limits.ample_forDepth 32)⟩

end PlsqlLint
