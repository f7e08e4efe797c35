import PlsqlLint.Proofs.BuiltIn
import PlsqlLint.Proofs.Spelling
import PlsqlLint.Proofs.Subtree

/-!
# What the built-in checks find

In a unit that has been parsed, the built-in checks find the comparisons of two operands that have the same text, token
by token, and the comparisons with the token `NULL` (`Engine.scan_builtIn`).

The checks compare trees.  One operand is read in front of an operator and the other behind it, one level deeper, but on
its own each is read again from its tokens (`Tree.IsOperand`).  So operands of the same text are equal trees, and the
token `NULL` is always the same literal.
-/

namespace PlsqlLint

/-! ### Trees and their tokens -/

namespace Tree

private theorem rule?_of_is {t : Tree} {r : Rule} (h : t.is (.rule r) = true) : t.rule? = some r := by
  cases t with
  | leaf _ => cases h
  | node rule _ _ =>
    obtain rfl : rule = r := by simpa [is, symbol] using h
    rfl

private theorem mem_listing_of_mem_children {ts : List Tree} {u v : Tree} (hu : u ∈ listing ts) (hv : v ∈ u.children) :
    v ∈ listing ts := by
  rw [listing_eq_flatMap] at hu ⊢
  obtain ⟨t, ht, hut⟩ := List.mem_flatMap.1 hu
  exact List.mem_flatMap.2 ⟨t, ht, mem_descendants_of_mem_children hut hv⟩

/-- The tokens of equal trees have the same text one by one. -/
theorem sameTexts_of_equal {a b : Tree} (h : a.equal b = true) : SameTexts a.tokens b.tokens := by
  induction a generalizing b with
  | leaf s =>
    rcases equal_cases h with ⟨_, t, hs, rfl, hst⟩ | ⟨_, _, _, _, _, hn, _⟩
    · cases hs
      rw [tokens_leaf, tokens_leaf]
      exact .cons hst .nil
    · cases hn
  | node rule span as ih =>
    rcases equal_cases h with ⟨_, _, hs, _⟩ | ⟨_, _, _, _, bs, hn, rfl, hc⟩
    · cases hs
    · cases hn
      rw [tokens_node, tokens_node]
      clear h
      induction hc with
      | nil => exact .nil
      | cons hab _ ihc =>
        rw [leaves_cons, leaves_cons]
        exact List.rel_append (ih _ List.mem_cons_self hab) (ihc fun t ht => ih t (List.mem_cons_of_mem _ ht))

end Tree

/-- From streams of the same text equal trees are read. -/
theorem Reads.sameTexts {n : Nat} {p : Pattern} {ts us vs : List Token} {xs : List Tree}
    (h : Reads n p [] ts (some (xs, vs))) (hsame : SameTexts ts us) (hts : ts ≠ []) :
    ∃ ys ws, Reads n p [] us (some (ys, ws)) ∧ List.Forall₂ (fun a b => a.equal b = true) xs ys := by
  cases hsame with
  | nil => exact absurd rfl hts
  | @cons t u ts us htu hrest =>
    have hstart : ParseState.Abreast (t :: ts) (u :: us) ⟨⟨0, t, ts⟩, none⟩ ⟨⟨0, u, us⟩, none⟩ := ⟨rfl, rfl, rfl, .none⟩
    have hagree : (Simulation.ofSameTexts (.cons htu hrest) (.forDepth n)).Agree (p.matchAt (.forDepth n) ⟨0, t, ts⟩)
        (p.matchAt (.forDepth n) ⟨0, u, us⟩) := Simulation.matchAt_agree _ p hstart
    have hmatch : (p.matchAt (.forDepth n) ⟨0, t, ts⟩).outcome? = some (some (xs, vs)) :=
      h.outcome ⟨.forDepth n, [], []⟩ (s := ⟨⟨0, t, ts⟩, none⟩) (Limits.ample_forDepth n).allows rfl
    obtain ⟨s, hs, -⟩ := Reply.eq_matched_of_outcome? hmatch
    rw [hs] at hagree
    have hsound := run_sound n p ⟨.forDepth n, [], []⟩ ⟨⟨0, u, us⟩, none⟩
    change ∀ o, (p.matchAt (.forDepth n) ⟨0, u, us⟩).outcome? = some o → _ at hsound
    generalize p.matchAt (.forDepth n) ⟨0, u, us⟩ = reply at hagree hsound
    cases hagree with
    | matched hx _ => exact ⟨_, _, hsound _ rfl, hx⟩
    | lost hl => exact hl.elim

/-! ### Operands on their own -/

/-- On its own, the tree is read again as an operand of a comparison. -/
def Tree.IsOperand (d : Nat) (t : Tree) : Prop :=
  ∀ e : Token, e.terminal = .endOfInput → Reads d Pattern.operand [] (t.tokens ++ [e]) (some ([t], [e]))

namespace Reads

open Pattern

/-- A comparison with a relational operator is read as an operand and, one level deeper, the operator and an operand. -/
theorem relation {n : Nat} {l : List Tree} {ts us : List Token} {span : Span} {a o b : Tree}
    (h : Reads n comparison l ts (some ([.node .comparisonExpression span [a, o, b]], us)))
    (ho : o.is (.rule .relationalOperator) = true) :
    ∃ m vs ws, n = m + 1 ∧ Reads n operand l ts (some ([a], vs)) ∧
      Reads m (Pattern.call .relationalOperator) [a] vs (some ([o], ws)) ∧ Reads m operand [a] ws (some ([b], us)) := by
  cases h with
  | onto ha hb =>
    obtain ⟨left, rfl, hleft⟩ := yieldsOne_operand l _ (ha.yields rfl)
    obtain ⟨q, hq, hread⟩ := hb.alternative
    have hmem : q ∈ comparisonTails.map (fun t => comparisonWith t.1 t.2) ++ [.left, .fail] := hq
    rcases List.mem_append.1 hmem with hq | hq
    · obtain ⟨⟨r, tail⟩, hm, rfl⟩ := List.mem_map.1 hq
      cases hread with
      | node hbody hz =>
        cases hbody with
        | seq hl ht hxs =>
          cases hl
          cases ht with
          | within ht =>
            obtain ⟨rfl, -, rfl⟩ := Tree.node.inj (List.singleton_inj.1 hz)
            obtain ⟨rfl, rfl⟩ := List.cons.inj hxs
            simp only [comparisonTails, List.mem_cons, Prod.mk.injEq, reduceCtorEq, true_and, false_and, or_false,
              List.not_mem_nil] at hm
            rcases hm with rfl | rfl
            · cases ht with
              | seq hop hright hz =>
                have hop' := hop
                cases hop with
                | call _ hx =>
                  subst hx
                  obtain ⟨rfl, rfl⟩ := List.cons.inj hz
                  exact ⟨_, _, _, rfl, ha, hop', hright⟩
            · -- between the operands of the other kind there are only tokens
              have hall := yieldsAll_collectionTail [a] _ (ht.yields rfl)
              have hnot := not_relational (List.all_eq_true.1 hall o List.mem_cons_self)
              rw [ho] at hnot
              cases hnot
    · rcases List.mem_cons.1 hq with rfl | hq
      · cases hread
        cases hleft
      · rw [List.mem_singleton.1 hq] at hread
        cases hread

/-- What is read in front of something that may follow an operand is an operand on its own. -/
private theorem isOperand {d n : Nat} {l : List Tree} {ts us : List Token} {t : Tree}
    (h : Reads n operand l ts (some ([t], us))) (hn : n ≤ d) (hts : Terminated ts)
    (hfollow : Rule.concatenationExpression.follow.holds us = true) : t.IsOperand d := by
  intro e he
  obtain ⟨w, hw, hleaves⟩ := h.consumes (b := false) rfl rfl hts
  have htokens : t.tokens = w := by simpa using hleaves
  have hadmits := Rule.concatenationExpression.admits_end (hw.terminated hts) hfollow he
  have hfirm : operand.firm Rule.concatenationExpression.context = true := by decide +kernel
  have hcut := (h.of_fresh rfl []).truncate rfl hfirm rfl hw.split hadmits
  rw [htokens]
  exact hcut.mono hn

/-- Both operands of a comparison that is read on its own are operands on their own. -/
private theorem isOperand_both {d : Nat} {span : Span} {a o b : Tree}
    (h : (Tree.node .comparisonExpression span [a, o, b]).Regained d) (ho : o.is (.rule .relationalOperator) = true) :
    a.IsOperand d ∧ b.IsOperand d := by
  obtain ⟨-, hread⟩ := h .comparisonExpression rfl
  have hlast := hread (.endAt default) rfl
  cases hlast with
  | only hcomp _ =>
    obtain ⟨m, vs, ws, rfl, ha, hop, hb⟩ := hcomp.relation ho
    have hts : Terminated ((Tree.node .comparisonExpression span [a, o, b]).tokens ++ [.endAt default]) :=
      ⟨_, List.getLast?_concat, rfl⟩
    obtain ⟨w, hw, -⟩ := ha.consumes (b := false) rfl rfl hts
    obtain ⟨v, hv, -⟩ := hop.consumes (b := false) rfl rfl (hw.terminated hts)
    have hbehind : Rule.concatenationExpression.follow.holds vs = true := by
      cases hop with
      | call hbody _ =>
        cases hbody with
        | take hacc _ =>
          refine Lookahead.holds_follow ?_ ((Lookahead.holds_one _ _ _).trans hacc)
          decide +kernel
    have hend : Rule.concatenationExpression.follow.holds [.endAt default] = true :=
      Lookahead.holds_follow (Rule.mayPrecede_end _) rfl
    exact ⟨ha.isOperand (Nat.le_refl _) hts hbehind,
      hb.isOperand (Nat.le_succ m) (hv.terminated (hw.terminated hts)) hend⟩

end Reads

/-! ### The literal `NULL` -/

/-- Whether the tokens are the word `NULL` and nothing else. -/
def IsNull (ts : List Token) : Prop := ts.map (·.terminal) = [.keyword .NULL]

instance (ts : List Token) : Decidable (IsNull ts) := inferInstanceAs (Decidable (_ = _))

namespace Reads

open Pattern

/-- On a level with binary operators, an operand without an operator behind it. -/
private theorem level {n : Nat} {r : Rule} {a op : Pattern} {ts us : List Token} {t : Tree}
    (hr : r.body = separated a op) (hc : r.collapses = true) (ha : Reads n a [] ts (some ([t], us)))
    (hop : Reads n op [] us none) :
    Reads (n + 1) (Pattern.call r) [] ts (some ([t], us)) := by
  have hbody : Reads n r.body [] ts (some ([t], us)) := by
    rw [hr]
    exact .seq ha (.manyStop (.seqFirst hop)) rfl
  refine .call hbody ?_
  rw [Rule.build, if_pos hc]
  rfl

/-- On a level without binary operators, a call yields a node of its rule. -/
private theorem rule?_of_call {n : Nat} {r : Rule} {l : List Tree} {ts us : List Token} {t : Tree}
    (h : Reads n (Pattern.call r) l ts (some ([t], us))) (hr : r.collapses = false) : t.rule? = some r := by
  cases h with
  | call _ hz =>
    rw [List.singleton_inj.1 hz, Rule.build, if_neg (by simp [hr])]
    rfl

/-- The word `NULL` is read as a literal, on all levels down to it. -/
private theorem null {x e : Token} (hx : x.terminal = .keyword .NULL) (he : e.terminal = .endOfInput) :
    Reads 5 operand [] [x, e] (some ([.ofRule .nullLiteral [.leaf x] default], [e])) := by
  have hliteral : Reads 1 (Pattern.call .nullLiteral) [] [x, e]
      (some ([.ofRule .nullLiteral [.leaf x] default], [e])) :=
    .call (.token (by simp [TokenClass.accepts, hx]) (by simp [hx]) (by simp))
      (congrArg ([·]) (Tree.ofRule_congr (by simp) _ _ _))
  have hprimary : Reads 1 primary [] [x, e] (some ([.ofRule .nullLiteral [.leaf x] default], [e])) := by
    refine .nextYes (by simp [TokenClass.accepts, hx]) ?_
    refine .nextNo (by simp [TokenClass.accepts, hx]) (.nextNo (by simp [TokenClass.accepts, hx]) ?_)
    exact .nextNo (by simp [TokenClass.accepts, hx]) (.nextYes (by simp [TokenClass.accepts, hx]) hliteral)
  have hpower := hprimary.level (r := .exponentiationExpression) rfl rfl (.takeNot (by simp [TokenClass.accepts, he]))
  have hsigned : Reads 2 signed [] [x, e] (some ([.ofRule .nullLiteral [.leaf x] default], [e])) :=
    .nextNo (by simp [TokenClass.accepts, hx]) hpower
  have hproduct := hsigned.level (r := .multiplicativeExpression) rfl rfl
    (.nextNo (by simp [TokenClass.accepts, Token.isWord, he]) (.takeNot (by simp [TokenClass.accepts, he])))
  have hsum := hproduct.level (r := .additiveExpression) rfl rfl (.takeNot (by simp [TokenClass.accepts, he]))
  exact hsum.level (r := .concatenationExpression) rfl rfl (.takeNot (by simp [TokenClass.accepts, he]))

end Reads

/-- The literal `NULL` has no other tokens than the word. -/
private theorem Tree.Regained.isNull {d : Nat} {t : Tree} (h : t.Regained d) (ht : t.rule? = some .nullLiteral) :
    IsNull t.tokens := by
  obtain ⟨-, hread⟩ := h .nullLiteral ht
  cases hread (.endAt default) rfl with
  | only hliteral _ =>
    -- the other literals are nodes of other rules
    cases hliteral with
    | nextYes _ hcall => cases ht.symm.trans (hcall.rule?_of_call rfl)
    | nextNo _ hrest =>
    cases hrest with
    | nextYes _ hcall => cases ht.symm.trans (hcall.rule?_of_call rfl)
    | nextNo _ hrest =>
    cases hrest with
    | nextYes _ hcall => cases ht.symm.trans (hcall.rule?_of_call rfl)
    | nextNo _ hrest =>
    cases hrest with
    | nextYes _ hcall =>
      cases hcall with
      | call hbody hz =>
        obtain ⟨x, hx, rfl⟩ := hbody.yields rfl
        cases hz
        simpa [IsNull, TokenClass.accepts] using hx
    | nextNo _ hreject => cases hreject

namespace Tree.IsOperand

variable {d : Nat} {a b t : Tree}

/-- Operands are equal if their tokens have the same text one by one. -/
theorem equal_iff (ha : a.IsOperand d) (hb : b.IsOperand d) : a.equal b = true ↔ SameTexts a.tokens b.tokens := by
  constructor
  · exact sameTexts_of_equal
  · intro h
    have hsame : SameTexts (a.tokens ++ [.endAt default]) (b.tokens ++ [.endAt default]) :=
      List.rel_append h (.cons rfl .nil)
    obtain ⟨ys, ws, hread, hequal⟩ := (ha _ rfl).sameTexts hsame (by simp)
    cases hread.unique (hb _ rfl) (by simp)
    exact (List.forall₂_cons.1 hequal).1

/-- An operand is the literal `NULL` if it is the word and nothing else. -/
theorem isNull_iff (h : t.IsOperand d) (hreg : t.Regained d) : t.is (.rule .nullLiteral) = true ↔ IsNull t.tokens := by
  constructor
  · intro hnull
    exact hreg.isNull (rule?_of_is hnull)
  · intro hnull
    obtain ⟨x, htokens, hx⟩ := List.map_eq_singleton_iff.1 hnull
    have hread := h (.endAt default) rfl
    rw [htokens] at hread
    cases hread.unique (Reads.null hx rfl) (by simp)
    rfl

end Tree.IsOperand

/-! ### Comparisons with a relational operator -/

instance (ts us : List Token) : Decidable (SameTexts ts us) := inferInstanceAs (Decidable (List.Forall₂ _ ts us))

namespace Tree

/-- What is to be reported of a tree, by the tokens of its operands if it is a comparison. -/
def findings : Tree → List Issue
  | .node .comparisonExpression span [left, operator, right] =>
    if operator.is (.rule .relationalOperator) then
      (if SameTexts left.tokens right.tokens then
        [⟨Check.identicalOperandsEntry,
          fillTemplate Check.identicalOperandsEntry.template [operator.firstText],
          ⟨left.span, none⟩, [⟨right.span, some "Original"⟩]⟩]
      else []) ++
      (if IsNull left.tokens ∨ IsNull right.tokens then
        [⟨Check.nullOperandEntry, fillTemplate Check.nullOperandEntry.template [], ⟨span, none⟩, []⟩]
      else [])
    else []
  | _ => []

variable {d : Nat} {t : Tree}

private theorem findings_of_other (h : ¬ t.is (.rule .comparisonExpression) = true) : t.findings = [] := by
  unfold findings
  split
  · exact absurd rfl h
  · rfl

/-- A comparison with a relational operator has two operands, and the operator stands between them. -/
theorem children_of_relation (h : t.shaped = true) (ht : t.is (.rule .comparisonExpression) = true)
    (ho : t.hasChild (.rule .relationalOperator) = true) :
    ∃ left operator right, t.children = [left, operator, right] ∧ left.binds 4 = true ∧
      operator.is (.rule .relationalOperator) = true ∧ right.binds 4 = true := by
  cases t with
  | leaf _ => cases ht
  | node rule span ts =>
    obtain rfl : rule = .comparisonExpression := by simpa [is, symbol] using ht
    have hany : ts.any (·.is (.rule .relationalOperator)) = true := by
      simpa [hasChild, firstOf?, children] using ho
    simp only [shaped, shapeOf, hany, if_true, Bool.and_eq_true] at h
    obtain ⟨-, hshape⟩ := h
    unfold relationShape at hshape
    split at hshape
    · rename_i a o b
      simp only [Bool.and_eq_true] at hshape
      exact ⟨a, o, b, rfl, hshape.1.1, hshape.1.2, hshape.2⟩
    · cases hshape

/-- The built-in checks report of a comparison what is to be reported. -/
theorem issues_eq_findings (hshaped : t.WellShaped) (hreg : t.Regained d)
    (hchildren : ∀ u ∈ t.children, u.Regained d) (ht : t.is (.rule .comparisonExpression) = true) :
    t.remarks = t.findings := by
  cases t with
  | leaf _ => cases ht
  | node rule span ts =>
    obtain rfl : rule = .comparisonExpression := by simpa [is, symbol] using ht
    cases ho : (Tree.node .comparisonExpression span ts).hasChild (.rule .relationalOperator) with
    | true =>
      obtain ⟨a, o, b, rfl, ha, hop, hb⟩ := children_of_relation (hshaped _ (mem_descendants_self _)) ht ho
      obtain ⟨hopa, hopb⟩ := Reads.isOperand_both hreg hop
      have hequal := hopa.equal_iff hopb
      have hnulla := hopa.isNull_iff (hchildren a (by simp [children]))
      have hnullb := hopb.isNull_iff (hchildren b (by simp [children]))
      have hnot : a.is (.rule .relationalOperator) = false :=
        Pattern.not_relational_of_binds ha
      have htext : o.operatorText = o.firstText :=
        operatorText_of_filled (filled_of_mem (filled_of_wellShaped hshaped) (by simp))
      simp [remarks, remarksWith, findings, firstOf?, firstChild?, lastChild?, children, hnot, hop, hequal, hnulla,
        hnullb, htext, Tree.span]
    | false =>
      have hnone : ∀ u ∈ ts, u.is (.rule .relationalOperator) = false := by
        simpa [hasChild, firstOf?, children] using ho
      have hfirst : (Tree.node .comparisonExpression span ts).firstOf? (.rule .relationalOperator) = none :=
        Option.isNone_iff_eq_none.1 (Option.isSome_eq_false_iff.1 ho)
      have hfindings : (Tree.node .comparisonExpression span ts).findings = [] := by
        unfold findings
        split
        · rename_i heq
          cases heq
          rw [hnone _ (by simp)]
          rfl
        · rfl
      rw [hfindings, remarks_of_none hfirst]

end Tree

/-! ### Scans with the built-in checks -/

namespace Engine

/-- On a unit that a text has been parsed to, the built-in checks report, comparison by comparison, that the operands on
both sides of a relational operator have the same text, token by token, and that one of them is the word `NULL`.  They
report nothing else and do not fail.  A comparison with a relational operator has nothing but the operator and the two
operands. -/
theorem scan_builtIn (text : String) (limits : Limits) (p : Parser) (root : Tree)
    (hp : Parser.ofText text limits = .ok p) (h : p.parse.1 = .ok root) :
    ((Engine.mk Check.builtIn).scan root).1 = ⟨root.descendants.flatMap Tree.findings, []⟩ ∧
    ∀ t ∈ root.descendants, t.is (.rule .comparisonExpression) = true →
      t.hasChild (.rule .relationalOperator) = true →
      ∃ left operator right, t.children = [left, operator, right] ∧
        operator.is (.rule .relationalOperator) = true := by
  obtain ⟨tokens, rfl⟩ : ∃ tokens, p = Parser.ofTokens tokens limits := by
    unfold Parser.ofText at hp
    split at hp
    · exact ⟨_, (Except.ok.inj hp).symm⟩
    · cases hp
  obtain ⟨more, e, rest, hread, _⟩ := Parser.reads_of_parseRule h
  obtain ⟨t, ht⟩ := hread.root_tree
  obtain ⟨rfl, rfl⟩ := List.cons.inj ht
  have hshaped : root.WellShaped :=
    hread.wellShaped rfl Rule.fileInput.proper_root rfl (by simp) root List.mem_cons_self
  obtain ⟨hbelow, hunit, -⟩ := hread.regained_unit (terminated_ofTokens tokens)
  refine ⟨?_, fun t ht hc ho => ?_⟩
  · rw [outcome_builtIn]
    congr 1
    refine List.flatMap_congr fun t ht => ?_
    by_cases hc : t.is (.rule .comparisonExpression) = true
    · -- the unit itself is not a comparison, so this one is below it
      have hmem : t ∈ Tree.listing root.children := by
        rw [Tree.descendants, Tree.listing, List.append_nil] at ht
        rcases List.mem_cons.1 ht with rfl | ht
        · cases hunit.symm.trans (Tree.rule?_of_is hc)
        · exact ht
      rw [if_pos hc]
      exact Tree.issues_eq_findings (fun u hu => hshaped u (Tree.mem_descendants_trans ht hu)) (hbelow t hmem)
        (fun u hu => hbelow u (Tree.mem_listing_of_mem_children hmem hu)) hc
    · rw [if_neg hc, Tree.findings_of_other hc]
  · obtain ⟨left, operator, right, hchildren, _, hop, _⟩ := Tree.children_of_relation (hshaped t ht) hc ho
    exact ⟨left, operator, right, hchildren, hop⟩

/-- The word `NULL` is compared with itself, so both checks report. -/
theorem scan_builtIn_null :
    let blank (n : Nat) : Trivia := ⟨.whitespace, " ", ⟨⟨1, n, n⟩, ⟨1, n + 1, n + 1⟩⟩⟩
    let first : Token := ⟨.keyword .EXIT, "EXIT", ⟨⟨1, 0, 0⟩, ⟨1, 4, 4⟩⟩, []⟩
    let second : Token := ⟨.keyword .WHEN, "WHEN", ⟨⟨1, 5, 5⟩, ⟨1, 9, 9⟩⟩, [blank 4]⟩
    let left : Token := ⟨.keyword .NULL, "NULL", ⟨⟨1, 10, 10⟩, ⟨1, 14, 14⟩⟩, [blank 9]⟩
    let operator : Token := ⟨.equals, "=", ⟨⟨1, 14, 14⟩, ⟨1, 15, 15⟩⟩, []⟩
    let right : Token := ⟨.keyword .NULL, "null", ⟨⟨1, 15, 15⟩, ⟨1, 19, 19⟩⟩, []⟩
    let semicolon : Token := ⟨.semicolon, ";", ⟨⟨1, 19, 19⟩, ⟨1, 20, 20⟩⟩, []⟩
    let stop : Token := .endAt ⟨1, 20, 20⟩
    let p := Parser.ofTokens [first, second, left, operator, right, semicolon, stop] (.forDepth 12)
    let root : Tree := .ofRule .fileInput
      [.ofRule .exitStatement
        [.leaf first, .leaf second,
         .ofRule .comparisonExpression
          [.ofRule .nullLiteral [.leaf left] default, .ofRule .relationalOperator [.leaf operator] default,
           .ofRule .nullLiteral [.leaf right] default] default,
         .leaf semicolon] default,
       .leaf stop] default
    Parser.ofText "EXIT WHEN NULL=null;" (.forDepth 12) = .ok p ∧ p.parse.1 = .ok root ∧
    ((Engine.mk Check.builtIn).scan root).1.issues.map
        (fun i => (i.source.key, i.primary.span.start.column, i.secondary.map (·.span.start.column))) =
      [("IdenticalExpression", 10, [15]), ("ComparisonWithNull", 10, [])] := by
  intro blank first second left operator right semicolon stop p root
  have htokens : tokenize "EXIT WHEN NULL=null;" = .ok [first, second, left, operator, right, semicolon, stop] := by
    decide +kernel
  have hp : Parser.ofText "EXIT WHEN NULL=null;" (.forDepth 12) = .ok p := by rw [Parser.ofText, htokens]
  have hroot : p.parse.1 = .ok root := by
    dsimp only [p, root, first, second, left, operator, right, semicolon, stop, blank]
    cbv
  refine ⟨hp, hroot, ?_⟩
  rw [(scan_builtIn _ _ _ _ hp hroot).1]
  cbv

end Engine

end PlsqlLint
