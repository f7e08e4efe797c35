import Mathlib
import PlsqlLint.Proofs.Subtree

/-!
# Labels of loops

A loop may carry a label, and its end may repeat the name that the label gives.  In every tree that a parse returns the
two agree, at whatever depth the loop lies and whichever of the three kinds it is (`parseRule_labels`).

A sequence of patterns is read part by part (`Reads.sequence_append`), and so a loop is taken apart into its label, what
is between, and its end (`Reads.loop`).  What an inner node of a parsed tree was read from in the middle of the stream
does not matter: on its own it is read again (`Tree.Regained`).
-/

namespace PlsqlLint

namespace Reads

open Pattern

variable {n : Nat} {l : List Tree} {ts us : List Token} {xs : List Tree}

/-- A sequence is read as its first patterns and then the others. -/
theorem sequence_append {ps qs : List Pattern} (hqs : qs ≠ [])
    (h : Reads n (Pattern.sequence (ps ++ qs)) l ts (some (xs, us))) :
    ∃ ys vs zs, Reads n (Pattern.sequence ps) l ts (some (ys, vs)) ∧
      Reads n (Pattern.sequence qs) l vs (some (zs, us)) ∧ xs = ys ++ zs := by
  induction ps generalizing ts xs with
  | nil => exact ⟨[], ts, xs, .empty, h, rfl⟩
  | cons p ps ih =>
    obtain ⟨q, more, hmore⟩ := List.exists_cons_of_ne_nil (List.append_ne_nil_of_right_ne_nil ps hqs)
    rw [List.cons_append, hmore] at h
    cases h with
    | @seq _ _ _ _ _ ys vs zs _ _ hp hrest hz =>
      rw [← hmore] at hrest
      cases ps with
      | nil => exact ⟨ys, vs, zs, hp, hrest, hz⟩
      | cons p' ps =>
        obtain ⟨ys', vs', zs', hps, hqs', rfl⟩ := ih hrest
        exact ⟨ys ++ ys', vs', zs', .seq hp hps rfl, hqs', by rw [hz, List.append_assoc]⟩

/-- A label, if there is one, is a node over its two marks with the name between them. -/
theorem label_of_name {name : Token} (h : Reads n maybeLabel l ts (some (xs, us)))
    (hname : Matcher.labelName? xs = some name) :
    ∃ label first last, xs = [label] ∧ label.rule? = some .label ∧
      label.children = [.leaf first, .leaf name, .leaf last] := by
  cases h with
  | nextNo _ hnone =>
    cases hnone
    cases hname
  | nextYes _ hcall =>
    cases hcall with
    | call hbody hz =>
      obtain ⟨ys, zs, ⟨first, -, rfl⟩, ⟨ys', zs', ⟨mid, -, rfl⟩, ⟨last, -, rfl⟩, rfl⟩, rfl⟩ := hbody.yields rfl
      subst hz
      obtain rfl : mid = name := Option.some.inj hname
      exact ⟨_, first, last, rfl, rfl, rfl⟩

/-- The parts of a loop: its label, what stands between, the word behind `END`, the name there, and the semicolon. -/
theorem loop {head : List Pattern} (h : Reads n (Pattern.loop head) l ts (some (xs, us))) :
    ∃ opening vs inner word closing ws ws' stop, Reads n maybeLabel l ts (some (opening, vs)) ∧
      Reads n Pattern.closingLabel opening ws (some (closing, ws')) ∧ word.terminal = .keyword .LOOP ∧
      stop.terminal = .semicolon ∧ xs = opening ++ inner ++ Tree.leaf word :: closing ++ [Tree.leaf stop] := by
  cases h with
  | @onto _ _ _ _ _ opening vs _ hlabel hrest =>
    have hsplit : Pattern.left :: head ++ [keyword .LOOP, .many statement, keyword .END, keyword .LOOP, .closingLabel,
        Pattern.terminal .semicolon] = ([.left] ++ (head ++ [keyword .LOOP, .many statement, keyword .END])) ++
          [keyword .LOOP, .closingLabel, Pattern.terminal .semicolon] := by simp
    rw [hsplit] at hrest
    obtain ⟨_, _, zs, hfront, hend, rfl⟩ := hrest.sequence_append (by simp)
    obtain ⟨_, _, inner, hleft, -, rfl⟩ := hfront.sequence_append (by simp)
    cases hleft
    cases hend with
    | seq hword hend hz =>
      cases hend with
      | seq hclosing hstop hz' =>
        obtain ⟨word, hacc, rfl⟩ := hword.yields rfl
        obtain ⟨stop, hacc', rfl⟩ := hstop.yields rfl
        refine ⟨opening, vs, inner, word, _, _, _, stop, hlabel, hclosing, ?_, ?_, ?_⟩
        · simpa [TokenClass.accepts] using hacc
        · simpa [TokenClass.accepts] using hacc'
        · rw [hz, hz']
          simp

/-- A name at the end of a loop repeats the one that the label gives, and there is a label then. -/
theorem loop_name {head : List Pattern} {before : List Tree} {name : Token} {last : Tree}
    (h : Reads n (Pattern.loop head) l ts (some (before ++ [Tree.leaf name, last], us)))
    (hname : name.terminal.isName = true) :
    last.is (.terminal .semicolon) = true ∧
      ∃ label first opened behind, (before ++ [Tree.leaf name, last]).head? = some label ∧ label.rule? = some .label ∧
        label.children = [Tree.leaf first, Tree.leaf opened, Tree.leaf behind] ∧ opened.sameText name = true := by
  obtain ⟨opening, vs, inner, word, closing, ws, ws', stop, hlabel, hclosing, hword, hstop, hxs⟩ := h.loop
  cases hclosing with
  | labelAbsent _ =>
    -- without a name the child in front of the semicolon is the word `LOOP`
    have hxs' : before ++ [Tree.leaf name] ++ [last] = opening ++ inner ++ [Tree.leaf word] ++ [Tree.leaf stop] := by
      simpa using hxs
    obtain ⟨hfront, -⟩ := List.append_inj' hxs' rfl
    obtain ⟨-, hleaf⟩ := List.append_inj' hfront rfl
    obtain rfl : name = word := by simpa using hleaf
    rw [hword] at hname
    cases hname
  | @label _ _ t _ _ opened _ hopened hsame _ =>
    have hxs' : before ++ [Tree.leaf name] ++ [last] =
        opening ++ inner ++ [Tree.leaf word] ++ [Tree.leaf t] ++ [Tree.leaf stop] := by
      simpa using hxs
    obtain ⟨hfront, hlast⟩ := List.append_inj' hxs' rfl
    obtain ⟨-, hleaf⟩ := List.append_inj' hfront rfl
    obtain rfl : name = t := by simpa using hleaf
    obtain rfl : last = Tree.leaf stop := by simpa using hlast
    obtain ⟨label, first, behind, rfl, hrule, hchildren⟩ := hlabel.label_of_name hopened
    refine ⟨by simp [Tree.is, Tree.symbol, hstop], label, first, opened, behind, ?_, hrule, hchildren, hsame⟩
    rw [hxs]
    rfl

end Reads

/-- Every inner node of a parsed tree is read again on its own, but for the unit. -/
private theorem Parser.regained_of_parseRule {tokens : List Token} {limits : Limits} {root : Rule} {tree node : Tree}
    (h : ((Parser.ofTokens tokens limits).parseRule root).1 = .ok tree) (hnode : node ∈ tree.descendants)
    (hunit : node.rule? ≠ some .fileInput) : node.Regained limits.maxDepth := by
  obtain ⟨more, e, behind, hread, he⟩ := Parser.reads_of_parseRule h
  obtain ⟨t, ht⟩ := hread.root_tree
  obtain ⟨rfl, rfl⟩ := List.cons.inj ht
  have hts : Terminated (Parser.ofTokens tokens limits).tokens := terminated_ofTokens tokens
  by_cases hr : root = .fileInput
  · subst hr
    obtain ⟨hbelow, hrule, -⟩ := hread.regained_unit hts
    rw [Tree.descendants, Tree.listing, List.append_nil] at hnode
    rcases List.mem_cons.1 hnode with rfl | hnode
    · exact absurd hrule hunit
    · exact hbelow node hnode
  · have hend : Lookahead.holds [[.oneOf [.endOfInput]]] (e :: behind) = true := by
      simp [TokenClass.accepts, he]
    have hall := hread.restores rfl (Nat.le_refl _) ⟨_, Rule.grounded_root hr, hend⟩ (Rule.passes_root hr) hts
      (by simp) tree List.mem_cons_self
    exact hall.all root.tops_root node hnode

/-- The rules of the loops, with what stands between the label and the body. -/
def Rule.loopHead? : Rule → Option (List Pattern)
  | .loopStatement => some []
  | .whileStatement => some [.keyword .WHILE, .expression]
  | .forStatement => some [.keyword .FOR, .identifier, .keyword .IN, .loopRange]
  | _ => none

/-- The children of a loop that is read again are read by the pattern of loops. -/
private theorem Tree.Regained.loop {d : Nat} {t : Tree} {r : Rule} {head : List Pattern} (h : t.Regained d)
    (hr : t.rule? = some r) (hhead : r.loopHead? = some head) :
    ∃ n ts us, Reads n (Pattern.loop head) [] ts (some (t.children, us)) := by
  obtain ⟨-, hread⟩ := h r hr
  have hread := hread (.endAt default) rfl
  have hroot : r.root = .call r ∧ r.body = Pattern.loop head ∧ r.collapses = false := by
    cases r <;> cases hhead <;> exact ⟨rfl, rfl, rfl⟩
  rw [hroot.1] at hread
  cases hread with
  | call hbody hz =>
    rw [hroot.2.1] at hbody
    obtain rfl := List.singleton_inj.1 hz
    rw [Rule.build, hroot.2.2]
    exact ⟨_, _, _, hbody⟩

/-- Labels of loops agree.  Where in a parsed tree the child before the last one of a loop is a name, the last child is
the closing semicolon, the first child is a label, and the name is the one that the label gives, up to the case rules of
the language.  In particular a quoted name closes a quoted label only. -/
theorem parseRule_labels (tokens : List Token) (limits : Limits) (root : Rule) (tree : Tree)
    (h : ((Parser.ofTokens tokens limits).parseRule root).1 = .ok tree) (loop : Tree) (hloop : loop ∈ tree.descendants)
    (hrule : loop.rule? = some .loopStatement ∨ loop.rule? = some .whileStatement ∨ loop.rule? = some .forStatement)
    (before : List Tree) (name : Token) (last : Tree) (hchildren : loop.children = before ++ [Tree.leaf name, last])
    (hname : name.terminal = .identifier ∨ name.terminal = .quotedIdentifier) :
    last.is (.terminal .semicolon) = true ∧
      ∃ label first opened behind, loop.firstChild? = some label ∧ label.rule? = some .label ∧
        label.children = [.leaf first, .leaf opened, .leaf behind] ∧ opened.sameText name = true ∧
        opened.terminal = name.terminal := by
  obtain ⟨r, head, hr, hhead⟩ : ∃ r head, loop.rule? = some r ∧ r.loopHead? = some head := by
    rcases hrule with hr | hr | hr <;> exact ⟨_, _, hr, rfl⟩
  have hunit : loop.rule? ≠ some .fileInput := by
    rw [hr]
    rintro ⟨⟩
    cases hhead
  have hregained := Parser.regained_of_parseRule h hloop hunit
  obtain ⟨n, ts, us, hread⟩ := hregained.loop hr hhead
  have hisName : name.terminal.isName = true := by
    rcases hname with hn | hn <;> rw [hn] <;> rfl
  rw [hchildren] at hread
  obtain ⟨hlast, label, first, opened, behind, hfirst, hlabel, hparts, hsame⟩ := hread.loop_name hisName
  have hterminal : opened.terminal = name.terminal := by
    simp only [Token.sameText, Bool.and_eq_true, beq_iff_eq] at hsame
    exact hsame.1
  refine ⟨hlast, label, first, opened, behind, ?_, hlabel, hparts, hsame, hterminal⟩
  rwa [Tree.firstChild?, hchildren]

/-- A loop with the label `<<a>>` that ends with `A`, and inside it one with a quoted label. -/
theorem parseRule_labels_nested :
    let loopWord : Token := .bare (.keyword .LOOP) "LOOP"
    let endWord : Token := .bare (.keyword .END) "END"
    let opens : Token := .bare .labelStart "<<"
    let closes : Token := .bare .labelEnd ">>"
    let stop : Token := .bare .semicolon ";"
    let quoted : Token := .bare .quotedIdentifier "\"b\""
    let lower : Token := .bare .identifier "a"
    let upper : Token := .bare .identifier "A"
    let label (name : Token) : Tree := .ofRule .label [.leaf opens, .leaf name, .leaf closes] default
    let inner : Tree := .ofRule .loopStatement
      [label quoted, .leaf loopWord, .leaf endWord, .leaf loopWord, .leaf quoted, .leaf stop] default
    let outer : Tree := .ofRule .loopStatement
      [label lower, .leaf loopWord, inner, .leaf endWord, .leaf loopWord, .leaf upper, .leaf stop] default
    ((Parser.ofTokens [opens, lower, closes, loopWord, opens, quoted, closes, loopWord, endWord, loopWord, quoted, stop,
        endWord, loopWord, upper, stop] (.forDepth 4)).parseRule .loopStatement).1 = .ok outer ∧
    inner ∈ outer.descendants ∧ quoted.terminal = .quotedIdentifier ∧
    (∃ name first opened behind, inner.firstChild? = some name ∧ name.rule? = some .label ∧
      name.children = [.leaf first, .leaf opened, .leaf behind] ∧ opened.sameText quoted = true ∧
      opened.terminal = quoted.terminal) ∧
    ∃ name first opened behind, outer.firstChild? = some name ∧ name.rule? = some .label ∧
      name.children = [.leaf first, .leaf opened, .leaf behind] ∧ opened.sameText upper = true ∧
      opened.terminal = upper.terminal := by
  intro loopWord endWord opens closes stop quoted lower upper label inner outer
  have hparse : ((Parser.ofTokens [opens, lower, closes, loopWord, opens, quoted, closes, loopWord, endWord, loopWord,
      quoted, stop, endWord, loopWord, upper, stop] (.forDepth 4)).parseRule .loopStatement).1 = .ok outer := by
    dsimp only [outer, inner, label, upper, lower, quoted, stop, closes, opens, endWord, loopWord]
    cbv
  have hinner : inner ∈ outer.descendants :=
    Tree.mem_descendants_ofRule (List.mem_cons_of_mem _ (List.mem_cons_of_mem _ List.mem_cons_self))
      (Tree.mem_descendants_self _)
  have hquoted := parseRule_labels _ _ _ outer hparse inner hinner (.inl rfl)
    [label quoted, .leaf loopWord, .leaf endWord, .leaf loopWord] quoted (.leaf stop) rfl (.inr rfl)
  have hplain := parseRule_labels _ _ _ outer hparse outer (Tree.mem_descendants_self _) (.inl rfl)
    [label lower, .leaf loopWord, inner, .leaf endWord, .leaf loopWord] upper (.leaf stop) rfl (.inl rfl)
  exact ⟨hparse, hinner, rfl, hquoted.2, hplain.2⟩

end PlsqlLint
