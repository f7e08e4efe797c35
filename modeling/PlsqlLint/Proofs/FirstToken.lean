import PlsqlLint.Proofs.Lossless

/-!
# What a pattern can start with

A token is foreign to a pattern if no class with which the pattern can start holds it (`Pattern.firsts`).  In front of a
foreign token a pattern reads nothing: it fails, or it matches without reading.  Which of the two it is, and how many
levels that takes, is the same for all foreign tokens (`Reads.foreign`).

Both the classes at the start and the least number of tokens that are read (`Pattern.width`) can be seen from the
pattern, once they are known for the rules that it calls.
-/

namespace PlsqlLint

/-! ### Comparing classes of tokens -/

namespace TokenClass

/-- No token belongs to both classes. -/
def apart : TokenClass → TokenClass → Bool
  | .oneOf as, .oneOf bs => as.all (!bs.contains ·)
  | .oneOf as, .word _ | .word _, .oneOf as => !as.contains .identifier
  | .oneOf as, .name | .name, .oneOf as => as.all (!·.isName)
  | .oneOf as, .member | .member, .oneOf as => as.all fun a => !(a.isName || a.isKeyword)
  | .word v, .word w => !sameCaseless v w
  | _, _ => false

/-- Every token of the second class belongs to the first. -/
def covers : TokenClass → TokenClass → Bool
  | .oneOf as, .oneOf bs => bs.all as.contains
  | .oneOf as, .word _ => as.contains .identifier
  | .oneOf as, .name => as.contains .identifier && as.contains .quotedIdentifier
  | .word v, .word w => sameCaseless v w
  | .name, .oneOf as => as.all (·.isName)
  | .name, .word _ | .name, .name => true
  | .member, .oneOf as => as.all fun a => a.isName || a.isKeyword
  | .member, .word _ | .member, .name | .member, .member => true
  | _, _ => false

theorem accepts_of_covers {j k : TokenClass} {t : Token} (h : j.covers k = true) (ht : k.accepts t = true) :
    j.accepts t = true := by
  cases j with
  | oneOf as =>
    cases k with
    | oneOf bs =>
      simp only [covers, accepts, List.all_eq_true, List.contains_eq_mem, decide_eq_true_eq] at h ht ⊢
      exact h _ ht
    | word w =>
      simp only [covers, accepts] at h ht ⊢
      rw [Token.identifier_of_isWord ht]
      exact h
    | name =>
      simp only [covers, accepts, Bool.and_eq_true] at h ht ⊢
      cases hterm : t.terminal <;> simp [hterm, Terminal.isName] at ht
      · exact h.1
      · exact h.2
    | member => cases h
  | word v =>
    cases k with
    | word w =>
      simp only [covers, accepts, Token.isWord, sameCaseless, Bool.and_eq_true, beq_iff_eq] at h ht ⊢
      exact ⟨ht.1, by rw [ht.2, h]⟩
    | _ => cases h
  | name =>
    cases k with
    | oneOf as =>
      simp only [covers, accepts, List.all_eq_true, List.contains_eq_mem, decide_eq_true_eq] at h ht ⊢
      exact h _ ht
    | word w =>
      simp only [accepts] at ht ⊢
      rw [Token.identifier_of_isWord ht]
      rfl
    | name => exact ht
    | member => cases h
  | member =>
    cases k with
    | oneOf as =>
      simp only [covers, accepts, List.all_eq_true, List.contains_eq_mem, decide_eq_true_eq] at h ht ⊢
      exact h _ ht
    | word w =>
      simp only [accepts] at ht ⊢
      rw [Token.identifier_of_isWord ht]
      rfl
    | name =>
      simp only [accepts] at ht ⊢
      rw [ht]
      rfl
    | member => exact ht

theorem not_accepts_of_apart {j k : TokenClass} {t : Token} (h : j.apart k = true) (ht : k.accepts t = true) :
    j.accepts t = false := by
  rw [← Bool.not_eq_true]
  intro hj
  cases j with
  | oneOf as =>
    cases k with
    | oneOf bs =>
      simp only [apart, accepts, List.all_eq_true, List.contains_eq_mem, decide_eq_true_eq, Bool.not_eq_true',
        decide_eq_false_iff_not] at h ht hj
      exact h _ hj ht
    | word w =>
      simp only [apart, accepts] at h ht hj
      rw [Token.identifier_of_isWord ht] at hj
      rw [hj] at h
      cases h
    | name | member =>
      simp only [apart, accepts, List.all_eq_true, List.contains_eq_mem, decide_eq_true_eq] at h ht hj
      have hnot := h _ hj
      rw [ht] at hnot
      cases hnot
  | word v =>
    cases k with
    | oneOf bs =>
      simp only [apart, accepts] at h ht hj
      rw [Token.identifier_of_isWord hj] at ht
      rw [ht] at h
      cases h
    | word w =>
      simp only [apart, accepts, Token.isWord, sameCaseless, Bool.and_eq_true, beq_iff_eq] at h ht hj
      simp [← hj.2, ht.2] at h
    | _ => cases h
  | name | member =>
    cases k with
    | oneOf bs =>
      simp only [apart, accepts, List.all_eq_true, List.contains_eq_mem, decide_eq_true_eq] at h ht hj
      have hnot := h _ ht
      rw [hj] at hnot
      cases hnot
    | _ => cases h

/-- The class of all tokens. -/
def any : TokenClass := .oneOf Terminal.all

private theorem accepts_any (t : Token) : any.accepts t = true := by
  have hall : ∀ a : Terminal, Terminal.all.contains a = true := by
    intro a
    cases a with
    | keyword k => cases k <;> decide
    | _ => decide
  exact hall t.terminal

end TokenClass

/-! ### What is read at least -/

namespace Pattern

/-- Every token that the pattern takes can be passed. -/
def passes : Pattern → Bool
  | .empty | .room _ | .left | .fail | .reject _ | .closingLabel => true
  | .take k _ => k.passable
  | .advance => false
  | .call r => r != .fileInput
  | .seq a b | .onto a b | .orElse a b | .ifNext _ a b | .chain a _ b => a.passes && b.passes
  | .many a | .within _ a | .node _ a | .collapse _ a | .only _ _ a | .last a => a.passes

/-- What the tokens weigh at least that the pattern reads, if those of a class weigh `cost` and what a rule reads
weighs `rules`.  A pattern that never matches may be given any weight. -/
def least (cost : TokenClass → Nat) (rules : Rule → Nat) : Pattern → Nat
  | .empty | .room _ | .many _ | .left | .closingLabel | .advance => 0
  | .take k _ => cost k
  | .fail | .reject _ => 2
  | .call r => rules r
  | .seq a b | .onto a b => a.least cost rules + b.least cost rules
  | .orElse a b | .ifNext _ a b => min (a.least cost rules) (b.least cost rules)
  | .within _ a | .node _ a | .collapse _ a | .only _ _ a | .chain a _ _ | .last a => a.least cost rules

end Pattern

namespace Task

def passes : Task → Bool
  | .pattern p => p.passes
  | .links _ link _ => link.passes

def least (cost : TokenClass → Nat) (rules : Rule → Nat) : Task → Nat
  | .pattern p => p.least cost rules
  | .links _ _ _ => 0

end Task

theorem Rule.passes_body {r : Rule} (hr : r ≠ .fileInput) : r.body.passes = true := by
  cases r <;> first | rfl | exact absurd rfl hr

/-- A match passes tokens that weigh what the pattern promises. -/
theorem Reads.passing {cost : TokenClass → Nat} {rules : Rule → Nat} {weight : Token → Nat}
    (hcost : ∀ k t, TokenClass.accepts k t = true → cost k ≤ weight t)
    (hrules : ∀ r : Rule, rules r ≤ r.body.least cost rules) {n : Nat} {task : Task} {l : List Tree} {ts : List Token}
    {o : Reading} (h : Reads n task l ts o) {xs : List Tree} {us : List Token} (ho : o = some (xs, us))
    (hp : task.passes = true) (hts : Terminated ts) :
    ∃ w, Consumes ts w us ∧ task.least cost rules ≤ (w.map weight).sum := by
  induction h generalizing xs us with
  | empty => cases ho; exact ⟨[], .refl _, Nat.le_refl _⟩
  | @take n l k e t ts vs ht hu =>
    cases ho
    refine ⟨[t], hu ▸ .passed (TokenClass.ne_endOfInput hp ht) hts, ?_⟩
    simpa [Task.least, Pattern.least] using hcost k t ht
  | advance hu => cases hp
  | room hw => cases ho; exact ⟨[], .refl _, Nat.le_refl _⟩
  | seq ha hb hz iha ihb =>
    cases ho
    simp only [Task.passes, Pattern.passes, Bool.and_eq_true] at hp
    obtain ⟨w, hw, hc⟩ := iha rfl hp.1 hts
    obtain ⟨w', hw', hc'⟩ := ihb rfl hp.2 (hw.terminated hts)
    refine ⟨w ++ w', hw.trans hw', ?_⟩
    simp only [Task.least, Pattern.least, List.map_append, List.sum_append] at hc hc' ⊢
    omega
  | orFirst ha iha =>
    simp only [Task.passes, Pattern.passes, Bool.and_eq_true] at hp
    obtain ⟨w, hw, hc⟩ := iha ho hp.1 hts
    exact ⟨w, hw, Nat.le_trans (Nat.min_le_left _ _) hc⟩
  | orSecond ha hb iha ihb =>
    simp only [Task.passes, Pattern.passes, Bool.and_eq_true] at hp
    obtain ⟨w, hw, hc⟩ := ihb ho hp.2 hts
    exact ⟨w, hw, Nat.le_trans (Nat.min_le_right _ _) hc⟩
  | manyStop ha iha => cases ho; exact ⟨[], .refl _, Nat.zero_le _⟩
  | manyMore ha hlt hm hz iha ihm =>
    cases ho
    obtain ⟨w, hw, hc⟩ := iha rfl hp hts
    obtain ⟨w', hw', hc'⟩ := ihm rfl hp (hw.terminated hts)
    exact ⟨w ++ w', hw.trans hw', Nat.zero_le _⟩
  | manyOnce ha hle iha =>
    obtain ⟨w, hw, hc⟩ := iha ho hp hts
    exact ⟨w, hw, Nat.zero_le _⟩
  | nextYes ht ha iha =>
    simp only [Task.passes, Pattern.passes, Bool.and_eq_true] at hp
    obtain ⟨w, hw, hc⟩ := iha ho hp.1 hts
    exact ⟨w, hw, Nat.le_trans (Nat.min_le_left _ _) hc⟩
  | nextNo ht hb ihb =>
    simp only [Task.passes, Pattern.passes, Bool.and_eq_true] at hp
    obtain ⟨w, hw, hc⟩ := ihb ho hp.2 hts
    exact ⟨w, hw, Nat.le_trans (Nat.min_le_right _ _) hc⟩
  | within ha iha => exact iha ho hp hts
  | node ha hz iha => cases ho; exact iha rfl hp hts
  | collapse ha hz iha => cases ho; exact iha rfl hp hts
  | @call n r l ts ys vs zs ha hz iha =>
    cases ho
    simp only [Task.passes, Pattern.passes, bne_iff_ne] at hp
    obtain ⟨w, hw, hc⟩ := iha rfl (Rule.passes_body hp) hts
    exact ⟨w, hw, Nat.le_trans (hrules r) hc⟩
  | only ha hall iha => exact iha ho hp hts
  | last ha hz iha => cases ho; exact iha rfl hp hts
  | onto ha hb iha ihb =>
    simp only [Task.passes, Pattern.passes, Bool.and_eq_true] at hp
    obtain ⟨w, hw, hc⟩ := iha rfl hp.1 hts
    obtain ⟨w', hw', hc'⟩ := ihb ho hp.2 (hw.terminated hts)
    refine ⟨w ++ w', hw.trans hw', ?_⟩
    simp only [Task.least, Pattern.least, List.map_append, List.sum_append] at hc hc' ⊢
    omega
  | left => cases ho; exact ⟨[], .refl _, Nat.le_refl _⟩
  | chain ha hl iha ihl =>
    simp only [Task.passes, Pattern.passes, Bool.and_eq_true] at hp
    obtain ⟨w, hw, hc⟩ := iha rfl hp.1 hts
    obtain ⟨w', hw', _⟩ := ihl ho hp.2 (hw.terminated hts)
    refine ⟨w ++ w', hw.trans hw', ?_⟩
    simp only [Task.least, Pattern.least, List.map_append, List.sum_append] at hc ⊢
    omega
  | @label n l t ts vs name hn hl hs hu =>
    cases ho
    have ht : t.terminal ≠ .endOfInput := by intro h; simp [h, Terminal.isName] at hn
    exact ⟨[t], hu ▸ .passed ht hts, Nat.zero_le _⟩
  | labelAbsent hn => cases ho; exact ⟨[], .refl _, Nat.le_refl _⟩
  | linksStop ht => cases ho; exact ⟨[], .refl _, Nat.le_refl _⟩
  | linksMore ht hc ha hlt hm iha ihm =>
    obtain ⟨w, hw, _⟩ := iha rfl hp hts
    obtain ⟨w', hw', _⟩ := ihm ho hp (hw.terminated hts)
    exact ⟨w ++ w', hw.trans hw', Nat.zero_le _⟩
  | linksOnce ht hc ha hle iha =>
    obtain ⟨w, hw, _⟩ := iha ho hp hts
    exact ⟨w, hw, Nat.zero_le _⟩
  | _ => cases ho

/-- A number of tokens that a call of the rule reads at least. -/
def Rule.width : Rule → Nat
  | .fileInput => 0
  | .arguments => 2
  | _ => 1

/-- A number of tokens that the pattern reads at least. -/
abbrev Pattern.width : Pattern → Nat := least (fun _ => 1) Rule.width

theorem Rule.width_body (r : Rule) : r.width ≤ r.body.width := by
  cases r <;> decide

theorem Rule.width_pos {r : Rule} (hr : r ≠ .fileInput) : 0 < r.width := by
  cases r <;> first | exact absurd rfl hr | decide

theorem Reads.wide {n : Nat} {p : Pattern} {l : List Tree} {ts us : List Token} {xs : List Tree}
    (h : Reads n p l ts (some (xs, us))) (hp : p.passes = true) (hts : Terminated ts) :
    ∃ w, Consumes ts w us ∧ p.width ≤ w.length := by
  obtain ⟨w, hw, hc⟩ := h.passing (fun _ _ _ => Nat.le_refl 1) Rule.width_body rfl hp hts
  have hlength : (w.map fun _ => 1).sum = w.length := by rw [List.map_const', List.sum_replicate_nat, Nat.mul_one]
  exact ⟨w, hw, hlength ▸ hc⟩

theorem Reads.consumed {n : Nat} {task : Task} {l : List Tree} {ts us : List Token} {xs : List Tree}
    (h : Reads n task l ts (some (xs, us))) (hp : task.passes = true) (hts : Terminated ts) :
    ∃ w, Consumes ts w us := by
  obtain ⟨w, hw, _⟩ := h.passing (fun _ _ _ => Nat.le_refl 1) Rule.width_body rfl hp hts
  exact ⟨w, hw⟩

/-! ### First tokens -/

/-- The classes of the first token where the condition holds. -/
def Lookahead.heads (ahead : Lookahead) : List TokenClass := ahead.map fun ks => ks.headD .any

namespace Rule

private def reserved (k : Keyword) : TokenClass := .oneOf [.keyword k]

/-- What primaries start with. -/
def primaryFirst : List TokenClass :=
  [.oneOf [.number, .string, .keyword .TRUE, .keyword .FALSE, .keyword .NULL, .leftParen, .colon], .name]

/-- What the operands of comparisons start with. -/
def operandFirst : List TokenClass := .oneOf [.plus, .minus] :: primaryFirst

/-- What expressions start with. -/
def expressionFirst : List TokenClass := reserved .NOT :: operandFirst

/-- What a call of the rule starts with. -/
def first : Rule → List TokenClass
  | .fileInput => [.any]
  | .blockStatement => [.oneOf [.labelStart, .keyword .DECLARE, .keyword .BEGIN]]
  | .declareSection => [reserved .DECLARE]
  | .variableDeclaration | .exceptionDeclaration | .datatype | .columnReference | .setClause | .variableName => [.name]
  | .cursorDeclaration => [.word "CURSOR"]
  | .exceptionHandler => [reserved .WHEN]
  | .label => [.oneOf [.labelStart]]
  | .nullStatement | .nullLiteral => [reserved .NULL]
  | .assignmentStatement | .callStatement => [.oneOf [.colon], .name]
  | .ifStatement => [reserved .IF]
  | .elsifClause => [reserved .ELSIF]
  | .elseClause => [reserved .ELSE]
  | .loopStatement => [.oneOf [.labelStart, .keyword .LOOP]]
  | .whileStatement => [.oneOf [.labelStart, .keyword .WHILE]]
  | .forStatement => [.oneOf [.labelStart, .keyword .FOR]]
  | .exitStatement => [reserved .EXIT]
  | .continueStatement => [.word "CONTINUE"]
  | .returnStatement => [reserved .RETURN]
  | .raiseStatement => [.word "RAISE"]
  | .commitStatement => [reserved .COMMIT]
  | .rollbackStatement => [reserved .ROLLBACK]
  | .selectStatement | .selectExpression => [reserved .SELECT]
  | .intoClause => [reserved .INTO]
  | .fromClause => [reserved .FROM]
  | .tableReference => [.oneOf [.leftParen], .name]
  | .whereClause => [reserved .WHERE]
  | .groupByClause => [reserved .GROUP]
  | .orderByClause => [reserved .ORDER]
  | .forUpdateClause => [reserved .FOR]
  | .insertStatement => [reserved .INSERT]
  | .updateStatement => [reserved .UPDATE]
  | .deleteStatement => [reserved .DELETE]
  | .orExpression | .andExpression | .selectColumn => expressionFirst
  | .notExpression => [reserved .NOT]
  | .relationalOperator => [.oneOf [.equals, .notEqual, .lessThan, .greaterThan, .lessEqual, .greaterEqual]]
  | .concatenationExpression | .additiveExpression | .multiplicativeExpression => operandFirst
  | .unaryExpression => [.oneOf [.plus, .minus]]
  | .exponentiationExpression => primaryFirst
  | .bracketedExpression | .arguments => [.oneOf [.leftParen]]
  | .numericLiteral => [.oneOf [.number]]
  | .characterLiteral => [.oneOf [.string]]
  | .booleanLiteral => [.oneOf [.keyword .TRUE, .keyword .FALSE]]
  | .bindVariable => [.oneOf [.colon]]
  | .argument => .oneOf [.times] :: expressionFirst
  | .comparisonExpression | .isNullExpression | .likeExpression | .betweenExpression | .inExpression
  | .memberExpression | .methodCall | .attributeExpression => []

end Rule

namespace Pattern

/-- The classes of the tokens that the pattern can start with. -/
def firsts : Pattern → List TokenClass
  | .empty | .room _ | .left | .fail | .reject _ => []
  | .advance | .only _ _ _ => [.any]
  | .take k _ => [k]
  | .call r => r.first
  | .seq a b | .onto a b => a.firsts ++ if a.width = 0 then b.firsts else []
  | .orElse a b => a.firsts ++ b.firsts
  | .ifNext ahead _ b => ahead.heads ++ b.firsts
  | .many a | .within _ a | .node _ a | .collapse _ a | .last a => a.firsts
  | .chain a ahead _ => a.firsts ++ if a.width = 0 then ahead.heads else []
  | .closingLabel => [.name]

end Pattern

def Task.firsts : Task → List TokenClass
  | .pattern p => p.firsts
  | .links ahead _ _ => ahead.heads

/-- The least width of a task. -/
abbrev Task.width : Task → Nat := Task.least (fun _ => 1) Rule.width

private theorem Rule.covers_body {r : Rule} (hr : r ≠ .fileInput) :
    ∀ k ∈ r.body.firsts, ∃ j ∈ r.first, j.covers k = true := by
  cases r <;> first | exact absurd rfl hr | decide

/-! ### Foreign tokens -/

theorem Cursor.accepts_of_fits {i : Nat} {t : Token} {ts : List Token} {ks : List TokenClass}
    (h : Cursor.fits ⟨i, t, ts⟩ 0 ks = true) : (ks.headD .any).accepts t = true := by
  cases ks with
  | nil => exact TokenClass.accepts_any t
  | cons k ks =>
    simp only [Cursor.fits, Bool.and_eq_true] at h
    exact h.1

/-- The token belongs to no class of the list. -/
def Token.Foreign (t : Token) (ks : List TokenClass) : Prop := ∀ k ∈ ks, k.accepts t = false

namespace Token.Foreign

variable {t : Token} {js ks : List TokenClass}

private theorem elim {k : TokenClass} {P : Prop} (h : t.Foreign ks) (hk : k ∈ ks) (hacc : k.accepts t = true) : P := by
  rw [h k hk] at hacc
  cases hacc

private theorem left (h : t.Foreign (js ++ ks)) : t.Foreign js := fun k hk => h k (List.mem_append_left _ hk)

private theorem right (h : t.Foreign (js ++ ks)) : t.Foreign ks := fun k hk => h k (List.mem_append_right _ hk)

private theorem holds {ahead : Lookahead} (h : t.Foreign ahead.heads) (ts : List Token) :
    ahead.holds (t :: ts) = false := by
  rw [← Bool.not_eq_true]
  intro hold
  obtain ⟨ks, hks, hfit⟩ := List.any_eq_true.1 hold
  exact h.elim (List.mem_map_of_mem hks) (Cursor.accepts_of_fits hfit)

private theorem body {r : Rule} (h : t.Foreign r.first) : t.Foreign r.body.firsts := by
  by_cases hr : r = .fileInput
  · subst hr
    exact h.elim List.mem_cons_self (TokenClass.accepts_any t)
  · intro k hk
    obtain ⟨j, hj, hcover⟩ := Rule.covers_body hr k hk
    rw [← Bool.not_eq_true]
    intro hacc
    exact h.elim hj (TokenClass.accepts_of_covers hcover hacc)

end Token.Foreign

/-- The outcome on `ts` and the outcome on `ts'` are both a mismatch, or both a match that reads nothing. -/
inductive Unmoved (width : Nat) (ts ts' : List Token) : Reading → Reading → Prop
  | mismatch : Unmoved width ts ts' none none
  | nothing {xs xs' : List Tree} (h : width = 0) : Unmoved width ts ts' (some (xs, ts)) (some (xs', ts'))

/-- In front of a foreign token nothing is read, and any other foreign token serves as well. -/
theorem Reads.foreign {n : Nat} {task : Task} {l : List Tree} {ts : List Token} {o : Reading}
    (h : Reads n task l ts o) {t : Token} {rest : List Token} (hts : ts = t :: rest) (ht : t.Foreign task.firsts)
    {t' : Token} (ht' : t'.Foreign task.firsts) (rest' : List Token) (l' : List Tree) :
    ∃ o', Reads n task l' (t' :: rest') o' ∧ Unmoved task.width (t :: rest) (t' :: rest') o o' := by
  induction h generalizing l' with
  | empty => subst hts; exact ⟨_, .empty, .nothing rfl⟩
  | @take n l k e t ts us hacc hu =>
    cases hts
    exact ht.elim List.mem_cons_self hacc
  | @takeNot n l k e t ts hacc => exact ⟨_, .takeNot (ht' k List.mem_cons_self), .mismatch⟩
  | advance hu => exact ht.elim List.mem_cons_self (TokenClass.accepts_any t)
  | fail => exact ⟨_, .fail, .mismatch⟩
  | reject => exact ⟨_, .reject, .mismatch⟩
  | room hw => subst hts; exact ⟨_, .room hw, .nothing rfl⟩
  | @seq n a b l ts xs us ys vs zs ha hb hz iha ihb =>
    subst hts
    obtain ⟨_, ha', hu⟩ := iha rfl ht.left ht'.left l'
    cases hu with
    | nothing hwa =>
      -- Nothing has been read, so the second part stands in front of the same token.
      have hw : a.width = 0 := hwa
      simp only [Task.firsts, Pattern.firsts, hw, if_true] at ht ht'
      obtain ⟨_, hb', hu⟩ := ihb rfl ht.right ht'.right l'
      cases hu with
      | nothing hwb => exact ⟨_, .seq ha' hb' rfl, .nothing (by simp only [Task.least, Pattern.least] at *; omega)⟩
  | seqFirst ha iha =>
    obtain ⟨_, ha', hu⟩ := iha hts ht.left ht'.left l'
    cases hu
    exact ⟨_, .seqFirst ha', .mismatch⟩
  | @seqSecond n a b l ts xs us ha hb iha ihb =>
    subst hts
    obtain ⟨_, ha', hu⟩ := iha rfl ht.left ht'.left l'
    cases hu with
    | nothing hwa =>
      have hw : a.width = 0 := hwa
      simp only [Task.firsts, Pattern.firsts, hw, if_true] at ht ht'
      obtain ⟨_, hb', hu⟩ := ihb rfl ht.right ht'.right l'
      cases hu
      exact ⟨_, .seqSecond ha' hb', .mismatch⟩
  | orFirst ha iha =>
    obtain ⟨_, ha', hu⟩ := iha hts ht.left ht'.left l'
    cases hu with
    | nothing hw => exact ⟨_, .orFirst ha', .nothing (by simp only [Task.least, Pattern.least] at *; omega)⟩
  | orSecond ha hb iha ihb =>
    obtain ⟨_, ha', hu⟩ := iha hts ht.left ht'.left l'
    cases hu
    obtain ⟨_, hb', hu⟩ := ihb hts ht.right ht'.right l'
    refine ⟨_, .orSecond ha' hb', ?_⟩
    cases hu with
    | mismatch => exact .mismatch
    | nothing hw => exact .nothing (by simp only [Task.least, Pattern.least] at *; omega)
  | manyStop ha iha =>
    subst hts
    obtain ⟨_, ha', hu⟩ := iha rfl ht ht' l'
    cases hu
    exact ⟨_, .manyStop ha', .nothing rfl⟩
  | manyMore ha hlt hm hz iha ihm =>
    subst hts
    obtain ⟨_, ha', hu⟩ := iha rfl ht ht' l'
    cases hu
    exact absurd hlt (Nat.lt_irrefl _)
  | manyOnce ha hle iha =>
    subst hts
    obtain ⟨_, ha', hu⟩ := iha rfl ht ht' l'
    cases hu
    exact ⟨_, .manyOnce ha' (Nat.le_refl _), .nothing rfl⟩
  | nextYes hold ha iha =>
    subst hts
    rw [ht.left.holds rest] at hold
    cases hold
  | nextNo hold hb ihb =>
    obtain ⟨_, hb', hu⟩ := ihb hts ht.right ht'.right l'
    refine ⟨_, .nextNo (ht'.left.holds rest') hb', ?_⟩
    cases hu with
    | mismatch => exact .mismatch
    | nothing hw => exact .nothing (by simp only [Task.least, Pattern.least] at *; omega)
  | within ha iha =>
    obtain ⟨_, ha', hu⟩ := iha hts ht ht' l'
    exact ⟨_, .within ha', hu⟩
  | node ha hz iha =>
    obtain ⟨_, ha', hu⟩ := iha hts ht ht' l'
    cases hu with
    | nothing hw => exact ⟨_, .node ha' rfl, .nothing hw⟩
  | nodeNot ha iha =>
    obtain ⟨_, ha', hu⟩ := iha hts ht ht' l'
    cases hu
    exact ⟨_, .nodeNot ha', .mismatch⟩
  | collapse ha hz iha =>
    obtain ⟨_, ha', hu⟩ := iha hts ht ht' l'
    cases hu with
    | nothing hw => exact ⟨_, .collapse ha' rfl, .nothing hw⟩
  | collapseNot ha iha =>
    obtain ⟨_, ha', hu⟩ := iha hts ht ht' l'
    cases hu
    exact ⟨_, .collapseNot ha', .mismatch⟩
  | @call n r l ts xs us zs ha hz iha =>
    obtain ⟨_, ha', hu⟩ := iha hts ht.body ht'.body []
    cases hu with
    | nothing hw =>
      have hbody : r.body.width = 0 := hw
      have hwidth : r.width = 0 := Nat.le_zero.1 (hbody ▸ r.width_body)
      exact ⟨_, .call ha' rfl, .nothing hwidth⟩
  | callNot ha iha =>
    obtain ⟨_, ha', hu⟩ := iha hts ht.body ht'.body []
    cases hu
    exact ⟨_, .callNot ha', .mismatch⟩
  | last ha hz iha =>
    obtain ⟨_, ha', hu⟩ := iha hts ht ht' l'
    cases hu with
    | nothing hw => exact ⟨_, .last ha' rfl, .nothing hw⟩
  | lastNot ha iha =>
    obtain ⟨_, ha', hu⟩ := iha hts ht ht' l'
    cases hu
    exact ⟨_, .lastNot ha', .mismatch⟩
  | @onto n a b l ts xs us o ha hb iha ihb =>
    subst hts
    obtain ⟨_, ha', hu⟩ := iha rfl ht.left ht'.left l'
    cases hu with
    | nothing hwa =>
      have hw : a.width = 0 := hwa
      simp only [Task.firsts, Pattern.firsts, hw, if_true] at ht ht'
      obtain ⟨_, hb', hu⟩ := ihb rfl ht.right ht'.right _
      refine ⟨_, .onto ha' hb', ?_⟩
      cases hu with
      | mismatch => exact .mismatch
      | nothing hwb => exact .nothing (by simp only [Task.least, Pattern.least] at *; omega)
  | ontoNot ha iha =>
    obtain ⟨_, ha', hu⟩ := iha hts ht.left ht'.left l'
    cases hu
    exact ⟨_, .ontoNot ha', .mismatch⟩
  | left => subst hts; exact ⟨_, .left, .nothing rfl⟩
  | @chain n a ahead link l ts xs us o ha hl iha ihl =>
    subst hts
    obtain ⟨_, ha', hu⟩ := iha rfl ht.left ht'.left l'
    cases hu with
    | nothing hwa =>
      have hw : a.width = 0 := hwa
      simp only [Task.firsts, Pattern.firsts, hw, if_true] at ht ht'
      obtain ⟨_, hl', hu⟩ := ihl rfl ht.right ht'.right _
      refine ⟨_, .chain ha' hl', ?_⟩
      cases hu with
      | mismatch => exact .mismatch
      | nothing _ => exact .nothing hwa
  | chainNot ha iha =>
    obtain ⟨_, ha', hu⟩ := iha hts ht.left ht'.left l'
    cases hu
    exact ⟨_, .chainNot ha', .mismatch⟩
  | label hn | labelOther hn | labelNone hn =>
    cases hts
    exact ht.elim List.mem_cons_self hn
  | labelAbsent hn =>
    cases hts
    exact ⟨_, .labelAbsent (ht' .name List.mem_cons_self), .nothing rfl⟩
  | linksStop hold => subst hts; exact ⟨_, .linksStop (ht'.holds rest'), .nothing rfl⟩
  | linksMore hold | linksOnce hold | linksNot hold =>
    subst hts
    rw [ht.holds rest] at hold
    cases hold
  | only | onlyOther | onlyNot => exact ht.elim List.mem_cons_self (TokenClass.accepts_any t)

end PlsqlLint
