import PlsqlLint.Proofs.Follow

/-!
# Reading a stream that is cut off

What a pattern reads it reads again when the stream is cut off behind it, or further behind (`Reads.truncate`).  Two
things could go wrong.  A part that has been left out, or an alternative that has failed, could match now; and a
lookahead could miss what it has seen.  Whether they can is decided for a pattern together with what follows it
(`Pattern.firm`).  Each rule is given the tokens that may follow it (`Rule.follow`), and all calls keep to that.
-/

namespace PlsqlLint

/-! ### Matches with a semicolon in them -/

/-- The rules whose text has a semicolon in it, each with a weight of one. -/
def Rule.closing : Rule → Nat
  | .blockStatement | .exceptionHandler | .elsifClause | .elseClause | .exceptionDeclaration | .cursorDeclaration
  | .variableDeclaration | .nullStatement | .ifStatement | .loopStatement | .whileStatement | .forStatement
  | .exitStatement | .continueStatement | .returnStatement | .raiseStatement | .commitStatement | .rollbackStatement
  | .selectStatement | .insertStatement | .updateStatement | .deleteStatement | .assignmentStatement
  | .callStatement => 1
  | _ => 0

def TokenClass.closing (k : TokenClass) : Nat := if k = .bar then 1 else 0

/-- Every match of the pattern reads a semicolon. -/
def Pattern.closes (p : Pattern) : Bool := 0 < p.least TokenClass.closing Rule.closing

private theorem Rule.closing_body (r : Rule) : r.closing ≤ r.body.least TokenClass.closing Rule.closing := by
  cases r <;> decide

theorem Reads.closing {n : Nat} {p : Pattern} {l : List Tree} {ts us : List Token} {xs : List Tree}
    (h : Reads n p l ts (some (xs, us))) (hp : p.passes = true) (hts : Terminated ts) (hc : p.closes = true) :
    ∃ w, Consumes ts w us ∧ ∃ s ∈ w, s.terminal = .semicolon := by
  have hcost : ∀ k t, TokenClass.accepts k t = true → k.closing ≤ if t.terminal = .semicolon then 1 else 0 := by
    intro k t hacc
    by_cases hk : k = .bar
    · have ht : t.terminal = .semicolon := by simpa [hk, TokenClass.accepts] using hacc
      exact Nat.le_of_eq (by rw [if_pos ht, TokenClass.closing, if_pos hk])
    · rw [TokenClass.closing, if_neg hk]
      exact Nat.zero_le _
  obtain ⟨w, hw, hle⟩ := h.passing hcost Rule.closing_body rfl hp hts
  have hpos := Nat.lt_of_lt_of_le (decide_eq_true_eq.mp hc) hle
  obtain ⟨x, hx, hx0⟩ := List.sum_pos_iff_exists_pos_nat.mp hpos
  obtain ⟨s, hs, rfl⟩ := List.mem_map.mp hx
  exact ⟨w, hw, s, hs, by by_cases ht : s.terminal = .semicolon <;> simp_all⟩

/-! ### What follows, in the whole stream and in the shorter one -/

/-- What is known about the rest of the whole stream and the rest of the shorter one. -/
structure Follow where
  /-- Both fit this. -/
  heads : Lookahead
  /-- The shorter stream may end at once. -/
  ends : Bool
  /-- There is a semicolon in what they have in common. -/
  barred : Bool

namespace Follow

/-- Nothing is known. -/
def unknown : Follow := ⟨[[]], true, false⟩

/-- What is known in front of another pattern. -/
def next (K : Follow) (p : Pattern) : Follow := ⟨p.lead K.heads, p.width == 0 && K.ends, K.barred || p.closes⟩

structure Admits (K : Follow) (ts ts' : List Token) : Prop where
  cut : CutOff ts ts'
  whole : K.heads.holds ts = true
  short : K.heads.holds ts' = true
  common : K.ends = false → ∃ t us us', ts = t :: us ∧ ts' = t :: us'
  barred : K.barred = true → Barred ts ts'

theorem admits_of_heads {heads : Lookahead} {ts ts' : List Token} (h : CutOff ts ts') (hwhole : heads.holds ts = true)
    (hshort : heads.holds ts' = true) : (Follow.mk heads true false).Admits ts ts' where
  cut := h
  whole := hwhole
  short := hshort
  common := by intro h; cases h
  barred := by intro h; cases h

theorem admits_unknown {ts ts' : List Token} (h : CutOff ts ts') : unknown.Admits ts ts' :=
  admits_of_heads h (Lookahead.holds_nil h.terminated.1.ne_nil) (Lookahead.holds_nil h.terminated.2.ne_nil)

end Follow

/-- The part of the stream that a match reads, if it is known where the match ends. -/
theorem Consumes.eq_of_append {ts w v us : List Token} (h : Consumes ts w us) (hv : ts = v ++ us) : w = v :=
  List.append_cancel_right (h.split.symm.trans hv)

private theorem Follow.Admits.next {K : Follow} {n : Nat} {p : Pattern} {l : List Tree} {w us us' : List Token}
    {xs : List Tree} (hK : K.Admits us us') (h : Reads n p l (w ++ us) (some (xs, us)))
    (h' : Reads n p l (w ++ us') (some (xs, us'))) (hp : p.passes = true) :
    (K.next p).Admits (w ++ us) (w ++ us') := by
  have hcut := hK.cut.append w
  obtain ⟨hts, hts'⟩ := hcut.terminated
  refine ⟨hcut, h.leads rfl hp hts hK.whole, h'.leads rfl hp hts' hK.short, ?_, ?_⟩
  · intro hends
    cases w with
    | cons t w => exact ⟨t, _, _, rfl, rfl⟩
    | nil =>
      obtain ⟨v, hv, hwidth⟩ := h.wide hp hts
      rw [hv.eq_of_append rfl, List.length_nil, Nat.le_zero] at hwidth
      simp only [Follow.next, hwidth, beq_self_eq_true, Bool.true_and] at hends
      exact hK.common hends
  · intro hbarred
    simp only [Follow.next, Bool.or_eq_true] at hbarred
    rcases hbarred with hb | hc
    · exact (hK.barred hb).append w
    · obtain ⟨v, hv, hs⟩ := h.closing hp hts hc
      rw [hv.eq_of_append rfl] at hs
      exact .of_mem hs us us'

/-! ### The tokens that may follow a rule -/

namespace Rule

private def anyOf (ts : List Terminal) : List TokenClass := [.oneOf ts]

/-- What may follow an expression.  The name is the alias of a column. -/
def expressionFollow : Lookahead :=
  [anyOf [.semicolon, .comma, .rightParen, .range, .endOfInput, .keyword .THEN, .keyword .LOOP, .keyword .FROM,
      .keyword .INTO, .keyword .AS, .keyword .WHERE, .keyword .GROUP, .keyword .ORDER, .keyword .FOR],
    [.word "ASC"], [.word "DESC"], [.name, .oneOf [.comma, .keyword .INTO, .keyword .FROM, .endOfInput]]]

def conjunctionFollow : Lookahead := anyOf [.keyword .OR] :: expressionFollow

def negationFollow : Lookahead := anyOf [.keyword .AND] :: conjunctionFollow

/-- What may follow an operand of a comparison. -/
def operandFollow : Lookahead :=
  [anyOf [.equals, .notEqual, .lessThan, .greaterThan, .lessEqual, .greaterEqual, .keyword .IS, .keyword .LIKE,
      .keyword .BETWEEN, .keyword .IN],
    [.oneOf [.keyword .NOT], .oneOf [.keyword .LIKE, .keyword .BETWEEN, .keyword .IN]],
    [.oneOf [.keyword .NOT], .word "MEMBER"], [.oneOf [.keyword .NOT], .word "SUBMULTISET"],
    [.word "MEMBER", .oneOf [.keyword .OF]], [.word "SUBMULTISET", .oneOf [.keyword .OF]], [.word "ESCAPE"]] ++
  (operandFirst.flatMap fun k => [[.word "MEMBER", k], [.word "SUBMULTISET", k]]) ++ negationFollow

def termFollow : Lookahead := anyOf [.concat] :: operandFollow

def factorFollow : Lookahead := anyOf [.plus, .minus] :: termFollow

def powerFollow : Lookahead := anyOf [.times, .divide] :: [.word "MOD"] :: factorFollow

/-- What may follow the text of the rule. -/
def follow : Rule → Lookahead
  | .orExpression => expressionFollow
  | .andExpression => conjunctionFollow
  | .notExpression | .comparisonExpression | .isNullExpression | .likeExpression | .betweenExpression | .inExpression =>
    negationFollow
  | .concatenationExpression => operandFollow
  | .additiveExpression => termFollow
  | .multiplicativeExpression => factorFollow
  | .unaryExpression | .exponentiationExpression => powerFollow
  | .argument => [anyOf [.comma, .rightParen, .endOfInput]]
  | .declareSection => [anyOf [.keyword .BEGIN, .endOfInput]]
  | .exceptionHandler => [anyOf [.keyword .WHEN, .keyword .END, .endOfInput]]
  | .elsifClause | .elseClause => [anyOf [.keyword .ELSIF, .keyword .ELSE, .keyword .END, .endOfInput]]
  | .datatype => [anyOf [.keyword .NOT, .assign, .keyword .DEFAULT, .semicolon, .endOfInput]]
  | .selectExpression | .forUpdateClause => [anyOf [.rightParen, .semicolon, .endOfInput]]
  | .orderByClause => [anyOf [.keyword .FOR, .rightParen, .semicolon, .endOfInput]]
  | .selectColumn => [anyOf [.comma, .keyword .INTO, .keyword .FROM, .endOfInput]]
  | .intoClause => [anyOf [.keyword .FROM, .endOfInput]]
  | .fromClause | .whereClause | .groupByClause =>
    [anyOf [.keyword .WHERE, .keyword .GROUP, .keyword .ORDER, .keyword .FOR, .rightParen, .semicolon, .endOfInput]]
  | .tableReference =>
    [anyOf [.comma, .keyword .WHERE, .keyword .GROUP, .keyword .ORDER, .keyword .FOR, .rightParen, .semicolon,
      .leftParen, .keyword .VALUES, .keyword .SELECT, .keyword .SET, .endOfInput]]
  | .columnReference =>
    [anyOf [.comma, .rightParen, .equals, .semicolon, .endOfInput], [.word "NOWAIT"], [.word "WAIT"], [.word "SKIP"]]
  | .setClause => [anyOf [.comma, .keyword .WHERE, .semicolon, .endOfInput]]
  | _ => [[]]

end Rule

/-- Tokens that fit the second classes fit the first. -/
def TokenClass.coverAll : List TokenClass → List TokenClass → Bool
  | [], _ => true
  | k :: ks, j :: js => k.covers j && coverAll ks js
  | _ :: _, [] => false

/-- Tokens that fit this may follow the rule. -/
def Rule.mayPrecede (r : Rule) (heads : Lookahead) : Bool := heads.all fun ks => r.follow.any (TokenClass.coverAll · ks)

namespace Pattern

/-! ### Firm patterns -/

/-- Where the pattern fails on the whole stream, it fails on the shorter one. -/
def gives (K : Follow) (p : Pattern) : Bool := K.heads.all p.refuses || K.barred && p.decided

/-- No token starts both patterns. -/
def apartFrom (p q : Pattern) : Bool := 0 < q.width && q.firsts.all fun k => p.firsts.all (·.apart k)

/-- What stands behind a label that may be left out. -/
def unlabelled : Pattern → Option Pattern
  | .seq (.ifNext [[.oneOf [.labelStart]]] (.call .label) .empty) p
  | .onto (.ifNext [[.oneOf [.labelStart]]] (.call .label) .empty) p => some p
  | _ => none

/-- No text matches both rules, be it that they differ behind a label only. -/
def distinct : Pattern → Pattern → Bool
  | .call r, .call s =>
    (Pattern.call r).apartFrom (.call s) || (r.body.unlabelled.any fun p => s.body.unlabelled.any p.apartFrom)
  | p, q => p.apartFrom q

def alternatives : Pattern → List Pattern
  | .orElse a b => a.alternatives ++ b.alternatives
  | p => [p]

/-- A match of the pattern in front of what is known to follow is a match as well where the stream is cut off. -/
def firm (K : Follow) : Pattern → Bool
  | .empty | .room _ | .left | .fail | .reject _ | .take _ _ => true
  | .advance | .last _ | .collapse _ _ => false
  | .seq a b | .onto a b => a.firm (K.next b) && b.firm K
  | .orElse a b => a.firm K && b.firm K && (a.gives (K.next b) || b.closes && b.alternatives.all a.distinct)
  | .many a => a.firm (K.next (.many a)) && 0 < a.width && a.gives K
  | .ifNext ahead a b =>
    a.firm K && b.firm K && ahead.all (·.all (·.passable)) &&
      ahead.all (·.length ≤ a.width + if K.ends then 0 else 1)
  | .within _ a | .only _ _ a => a.firm K
  | .node _ a => a.firm K && 0 < a.width && (a.lossless true || a.lossless false)
  | .call r => r.mayPrecede K.heads
  | .chain a ahead link =>
    a.firm .unknown && link.firm .unknown && 0 < link.width && ahead.all (·.all (·.passable)) &&
      ahead.all (·.length ≤ link.width)
  | .closingLabel => !K.ends

end Pattern

/-- What is known behind a call of the rule. -/
def Rule.context (r : Rule) : Follow := ⟨r.follow, true, false⟩

theorem Rule.firm_body {r : Rule} (hr : r ≠ .fileInput) : r.body.firm r.context = true := by
  cases r with
  | fileInput => exact absurd rfl hr
  | _ => decide +kernel

private theorem Fit.of_coverAll {ks js : List TokenClass} {ts : List Token} (h : TokenClass.coverAll ks js = true)
    (hf : Fit js ts) : Fit ks ts := by
  induction ks generalizing js ts with
  | nil =>
    cases ts with
    | nil => cases hf
    | cons t ts => exact .nil (by simp)
  | cons k ks ih =>
    cases js with
    | nil => cases h
    | cons j js =>
      simp only [TokenClass.coverAll, Bool.and_eq_true] at h
      match ts with
      | [] => cases hf
      | [t] =>
        rw [Fit.last_iff] at hf ⊢
        have hfit := Fit.last_iff.1 (ih h.2 (Fit.last_iff.2 fun i hi => hf i (List.mem_cons_of_mem _ hi)))
        intro i hi
        rcases List.mem_cons.1 hi with rfl | hi
        · exact TokenClass.accepts_of_covers h.1 (hf j List.mem_cons_self)
        · exact hfit i hi
      | t :: u :: ts =>
        rw [Fit.cons_iff (by simp)] at hf ⊢
        exact ⟨TokenClass.accepts_of_covers h.1 hf.1, ih h.2 hf.2⟩

theorem Lookahead.holds_follow {heads : Lookahead} {r : Rule} {ts : List Token} (hr : r.mayPrecede heads = true)
    (h : heads.holds ts = true) : r.follow.holds ts = true := by
  rw [holds_iff] at h ⊢
  obtain ⟨ks, hks, hf⟩ := h
  obtain ⟨js, hjs, hcover⟩ := List.any_eq_true.1 (List.all_eq_true.1 hr ks hks)
  exact ⟨js, hjs, .of_coverAll hcover hf⟩

private theorem Follow.Admits.call {K : Follow} {r : Rule} {ts ts' : List Token} (hK : K.Admits ts ts')
    (hr : r.mayPrecede K.heads = true) : r.context.Admits ts ts' :=
  admits_of_heads hK.cut (Lookahead.holds_follow hr hK.whole) (Lookahead.holds_follow hr hK.short)

/-! ### Trials that fail on the shorter stream as well -/

namespace Reads

variable {n : Nat} {p q : Pattern} {l : List Tree} {ts ts' us : List Token} {xs : List Tree}

private theorem given {K : Follow} (h : Reads n p l ts none) (hp : p.gives K = true) (hK : K.Admits ts ts') :
    Reads n p l ts' none := by
  simp only [Pattern.gives, Bool.or_eq_true, Bool.and_eq_true] at hp
  rcases hp with hrefuse | ⟨hbar, hdec⟩
  · obtain ⟨ks, hks, hf⟩ := Lookahead.holds_iff.1 hK.whole
    obtain ⟨ks', hks', hf'⟩ := Lookahead.holds_iff.1 hK.short
    rw [List.all_eq_true] at hrefuse
    exact h.ruledOut hK.cut hf hf' (hrefuse ks hks) (hrefuse ks' hks')
  · exact h.decided hdec (hK.barred hbar)

/-- Where one of two patterns that start apart matches, the other fails. -/
theorem apart_none (h : Reads n p l ts none) (hp : p.apartFrom q = true) (hb : Barred ts ts') {m : Nat} {l₂ : List Tree}
    (hq : Reads m q l₂ ts (some (xs, us))) : Reads n p l ts' none := by
  simp only [Pattern.apartFrom, Bool.and_eq_true, decide_eq_true_eq, List.all_eq_true] at hp
  obtain ⟨t, rest, rest', rfl, rfl⟩ : ∃ t rest rest', ts = t :: rest ∧ ts' = t :: rest' := by
    cases hb <;> exact ⟨_, _, _, rfl, rfl⟩
  obtain ⟨k, hk, hacc⟩ := hq.starts hp.1
  have ht : t.Foreign p.firsts := fun j hj => TokenClass.not_accepts_of_apart (hp.2 k hk j hj) hacc
  obtain ⟨_, h', hu⟩ := h.foreign rfl ht ht rest' l
  cases hu
  exact h'

theorem alternative (h : Reads n p l ts (some (xs, us))) : ∃ q ∈ p.alternatives, Reads n q l ts (some (xs, us)) := by
  induction p with
  | orElse a b iha ihb =>
    cases h with
    | orFirst ha =>
      obtain ⟨q, hq, hread⟩ := iha ha
      exact ⟨q, List.mem_append_left _ hq, hread⟩
    | orSecond _ hb =>
      obtain ⟨q, hq, hread⟩ := ihb hb
      exact ⟨q, List.mem_append_right _ hq, hread⟩
  | _ => exact ⟨_, List.mem_cons_self, h⟩

end Reads

private theorem Pattern.eq_of_unlabelled {p q : Pattern} (h : p.unlabelled = some q) :
    p = .seq maybeLabel q ∨ p = .onto maybeLabel q := by
  unfold unlabelled at h
  split at h
  · cases h; exact .inl rfl
  · cases h; exact .inr rfl
  · cases h

namespace Reads

variable {n : Nat} {p q : Pattern} {l : List Tree} {ts ts' us : List Token} {xs : List Tree}

/-- A match of a labelled pattern is a match of the label, which may be missing, and one of what stands behind it. -/
theorem behind_label (h : Reads n p l ts (some (xs, us))) (hp : p.unlabelled = some q) :
    ∃ ys vs l₂ zs, Reads n Pattern.maybeLabel l ts (some (ys, vs)) ∧ Reads n q l₂ vs (some (zs, us)) := by
  rcases Pattern.eq_of_unlabelled hp with rfl | rfl
  · cases h with
    | seq ha hb => exact ⟨_, _, _, _, ha, hb⟩
  · cases h with
    | onto ha hb => exact ⟨_, _, _, _, ha, hb⟩

/-- A labelled pattern that fails behind the label fails wherever it does so. -/
private theorem behind_label_none (h : Reads n p l ts none) (hp : p.unlabelled = some q) {ys : List Tree}
    {vs : List Token} (hlabel : Reads n Pattern.maybeLabel l ts (some (ys, vs))) (hts : ts ≠ []) :
    ∃ l₂, Reads n q l₂ vs none ∧ ∀ ts' vs', Reads n Pattern.maybeLabel l ts' (some (ys, vs')) →
      Reads n q l₂ vs' none → Reads n p l ts' none := by
  rcases Pattern.eq_of_unlabelled hp with rfl | rfl
  · cases h with
    | seqFirst ha => cases ha.unique hlabel hts
    | seqSecond ha hb =>
      cases ha.unique hlabel hts
      exact ⟨_, hb, fun _ _ => .seqSecond⟩
  · cases h with
    | ontoNot ha => cases ha.unique hlabel hts
    | onto ha hb =>
      cases ha.unique hlabel hts
      exact ⟨_, hb, fun _ _ => .onto⟩

/-- Where one of two distinct patterns matches, the other fails. -/
theorem distinct_none (h : Reads n p l ts none) (hp : p.distinct q = true) (hb : Barred ts ts')
    (hq : Reads n q l ts (some (xs, us))) : Reads n p l ts' none := by
  unfold Pattern.distinct at hp
  split at hp
  · rename_i r s
    simp only [Bool.or_eq_true, Option.any_eq_true] at hp
    rcases hp with hp | ⟨a, ha, c, hc, hapart⟩
    · exact h.apart_none hp hb hq
    · cases h with
      | callNot hr =>
        cases hq with
        | call hs =>
          obtain ⟨ys, vs, l₂, zs, hlabel, hread⟩ := hs.behind_label hc
          obtain ⟨l₃, hnone, hfail⟩ := hr.behind_label_none ha hlabel hb.ne_nil.1
          -- The label has no semicolon in it, so it is the same on both streams.
          obtain ⟨_, hlabel', hsame⟩ := hlabel.barred rfl hb
          cases hsame with
          | matched _ _ hbvs => exact .callNot (hfail _ _ hlabel' (hnone.apart_none hapart hbvs hread))
  · exact h.apart_none hp hb hq

end Reads

/-! ### Places do not matter -/

theorem Tree.ofRule_congr {xs : List Tree} (h : xs ≠ []) (r : Rule) (p q : Position) :
    ofRule r xs p = ofRule r xs q := by
  obtain ⟨x, xs, rfl⟩ := List.exists_cons_of_ne_nil h
  simp [ofRule, Span.unionAll?]

theorem Rule.build_congr {xs : List Tree} (h : xs ≠ []) (r : Rule) (p q : Position) : r.build xs p = r.build xs q := by
  unfold Rule.build Tree.collapsed
  split
  · split
    · rfl
    · exact Tree.ofRule_congr h r p q
  · exact Tree.ofRule_congr h r p q

/-- A pattern that reads something and loses nothing yields something. -/
theorem Reads.ne_nil {n : Nat} {p : Pattern} {l : List Tree} {ts us : List Token} {xs : List Tree}
    (h : Reads n p l ts (some (xs, us))) (hp : p.passes = true) (hw : 0 < p.width) {b : Bool}
    (hl : p.lossless b = true) (hts : Terminated ts) : xs ≠ [] := by
  rintro rfl
  obtain ⟨w, hw', hwidth⟩ := h.wide hp hts
  obtain ⟨v, hv, hleaves⟩ := h.consumes rfl hl hts
  rw [hv.eq_of_append hw'.split, Tree.leaves_nil] at hleaves
  have hnil : w = [] := (List.append_eq_nil_iff.1 hleaves.symm).2
  rw [hnil, List.length_nil] at hwidth
  omega

/-! ### The truncation theorem -/

/-- Of two matches one behind the other, each reads its part of what both read. -/
private theorem Reads.parts {n m : Nat} {a : Pattern} {task : Task} {l l₂ ys zs : List Tree} {ts vs us w : List Token}
    (ha : Reads n a l ts (some (ys, vs))) (hb : Reads m task l₂ vs (some (zs, us))) (hpa : a.passes = true)
    (hpb : task.passes = true) (hts : Terminated ts) (hw : ts = w ++ us) :
    ∃ w₁ w₂, w = w₁ ++ w₂ ∧ ts = w₁ ++ vs ∧ vs = w₂ ++ us ∧ Terminated vs ∧ a.width ≤ w₁.length := by
  obtain ⟨w₁, hw₁, hwidth⟩ := ha.wide hpa hts
  have hvs := hw₁.terminated hts
  obtain ⟨w₂, hw₂⟩ := hb.consumed hpb hvs
  exact ⟨w₁, w₂, ((hw₁.trans hw₂).eq_of_append hw).symm, hw₁.split, hw₂.split, hvs, hwidth⟩

def Task.firm (K : Follow) : Task → Bool
  | .pattern p => p.firm K
  | .links ahead link _ =>
    link.firm .unknown && 0 < link.width && ahead.all (·.all (·.passable)) && ahead.all (·.length ≤ link.width)

/-- A match of a firm pattern is a match where the stream is cut off behind it. -/
theorem Reads.truncate {n : Nat} {task : Task} {l : List Tree} {ts : List Token} {o : Reading} (h : Reads n task l ts o)
    {xs : List Tree} {us : List Token} (ho : o = some (xs, us)) {K : Follow} (hf : task.firm K = true)
    (hp : task.passes = true) {w us' : List Token} (hw : ts = w ++ us) (hK : K.Admits us us') :
    Reads n task l (w ++ us') (some (xs, us')) := by
  have hts : Terminated ts := hw ▸ (hK.cut.append w).terminated.1
  induction h generalizing xs us K w us' with
  | empty =>
    cases ho
    obtain rfl : w = [] := by simpa using hw
    exact .empty
  | @take n l k e t ts vs hacc hu =>
    cases ho
    have ht := TokenClass.ne_endOfInput hp hacc
    obtain rfl : [t] = w := (Consumes.passed ht hts).eq_of_append (hu ▸ hw)
    exact .token hacc ht hK.cut.terminated.2.ne_nil
  | advance hu => cases hp
  | room hwanted =>
    cases ho
    obtain rfl : w = [] := by simpa using hw
    exact .room hwanted
  | @seq n a b l ts ys vs zs us xs ha hb hz iha ihb =>
    cases ho
    simp only [Task.firm, Task.passes, Pattern.firm, Pattern.passes, Bool.and_eq_true] at hf hp
    obtain ⟨w₁, w₂, rfl, hw₁, hw₂, hvs, _⟩ := ha.parts hb hp.1 hp.2 hts hw
    -- The second part comes first: what it reads is what follows the first part.
    have hb' := ihb rfl hf.2 hp.2 hw₂ hK hvs
    have hnext := hK.next (hw₂ ▸ hb) hb' hp.2
    have ha' := iha rfl hf.1 hp.1 hw₁ (hw₂ ▸ hnext) hts
    rw [List.append_assoc]
    exact .seq ha' hb' hz
  | orFirst ha iha =>
    simp only [Task.firm, Task.passes, Pattern.firm, Pattern.passes, Bool.and_eq_true] at hf hp
    cases ho
    exact .orFirst (iha rfl hf.1.1 hp.1 hw hK hts)
  | @orSecond n a b l ts o ha hb iha ihb =>
    simp only [Task.firm, Task.passes, Pattern.firm, Pattern.passes, Bool.and_eq_true, Bool.or_eq_true] at hf hp
    cases ho
    subst hw
    have hb' := ihb rfl hf.1.2 hp.2 rfl hK hts
    refine .orSecond ?_ hb'
    rcases hf.2 with hgives | ⟨hcloses, hall⟩
    · exact ha.given hgives (hK.next hb hb' hp.2)
    · obtain ⟨v, hv, hs⟩ := hb.closing hp.2 hts hcloses
      rw [hv.eq_of_append rfl] at hs
      obtain ⟨q, hq, hread⟩ := hb.alternative
      exact ha.distinct_none (List.all_eq_true.1 hall q hq) (.of_mem hs us us') hread
  | manyStop ha iha =>
    cases ho
    simp only [Task.firm, Pattern.firm, Bool.and_eq_true] at hf
    obtain rfl : w = [] := by simpa using hw
    exact .manyStop (ha.given hf.2 hK)
  | @manyMore n a l ts ys vs zs us xs ha hlt hm hz iha ihm =>
    cases ho
    have hf' := hf
    simp only [Task.firm, Pattern.firm, Bool.and_eq_true, decide_eq_true_eq] at hf'
    obtain ⟨w₁, w₂, rfl, hw₁, hw₂, hvs, hwidth⟩ := ha.parts hm hp hp hts hw
    have hm' := ihm rfl hf hp hw₂ hK hvs
    have hnext := hK.next (hw₂ ▸ hm) hm' hp
    have ha' := iha rfl hf'.1.1 hp hw₁ (hw₂ ▸ hnext) hts
    rw [List.append_assoc]
    exact .manyMore ha' (by simp only [List.length_append]; omega) hm' hz
  | manyOnce ha hle iha =>
    simp only [Task.firm, Pattern.firm, Bool.and_eq_true, decide_eq_true_eq] at hf
    cases ho
    obtain ⟨w₁, hw₁, hwidth⟩ := ha.wide hp hts
    rw [hw₁.split, List.length_append] at hle
    omega
  | @nextYes n ahead a b l ts o hold ha iha =>
    simp only [Task.firm, Task.passes, Pattern.firm, Pattern.passes, Bool.and_eq_true, List.all_eq_true,
      decide_eq_true_eq] at hf hp
    cases ho
    subst hw
    have hne := (hK.cut.append w).terminated.2.ne_nil
    obtain ⟨v, hv, hwidth⟩ := ha.wide hp.1 hts
    rw [hv.eq_of_append rfl] at hwidth
    refine .nextYes ?_ (iha rfl hf.1.1.1 hp.1 rfl hK hts)
    cases hends : K.ends with
    | true =>
      rw [hends] at hf
      exact Lookahead.holds_congr hold (fun ks hks => Nat.le_trans (hf.2 ks hks) hwidth) hne
    | false =>
      -- The first token behind the match counts too.
      obtain ⟨t, rest, rest', rfl, rfl⟩ := hK.common hends
      rw [hends] at hf
      rw [List.append_cons] at hold hne ⊢
      refine Lookahead.holds_congr hold (fun ks hks => ?_) hne
      have hlength := hf.2 ks hks
      simp only [List.length_append, List.length_singleton, Bool.false_eq_true, if_false] at hlength ⊢
      omega
  | nextNo hold hb ihb =>
    simp only [Task.firm, Task.passes, Pattern.firm, Pattern.passes, Bool.and_eq_true] at hf hp
    cases ho
    refine .nextNo ?_ (ihb rfl hf.1.1.2 hp.2 hw hK hts)
    exact (hK.cut.append w).holds_eq_false hf.1.2 (hw ▸ hold)
  | within ha iha =>
    cases ho
    exact .within (iha rfl hf hp hw hK hts)
  | @node n r a l ts ys vs zs ha hz iha =>
    cases ho
    simp only [Task.firm, Pattern.firm, Bool.and_eq_true, decide_eq_true_eq, Bool.or_eq_true] at hf
    have hne : ys ≠ [] := hf.2.elim (ha.ne_nil hp hf.1.2 · hts) (ha.ne_nil hp hf.1.2 · hts)
    exact .node (iha rfl hf.1.1 hp hw hK hts) (by rw [hz, Tree.ofRule_congr hne])
  | @call n r l ts ys vs zs ha hz iha =>
    cases ho
    have hr : r ≠ .fileInput := by simpa [Task.passes, Pattern.passes] using hp
    have hwidth : 0 < r.body.width := Nat.lt_of_lt_of_le (Rule.width_pos hr) r.width_body
    have hne : ys ≠ [] := ha.ne_nil (Rule.passes_body hr) hwidth (r.lossless_body hr) hts
    have ha' := iha rfl (Rule.firm_body hr) (Rule.passes_body hr) hw (hK.call hf) hts
    exact .call ha' (by rw [hz, Rule.build_congr hne])
  | only ha hall iha =>
    cases ho
    exact .only (iha rfl hf hp hw hK hts) hall
  | @onto n a b l ts ys vs o ha hb iha ihb =>
    simp only [Task.firm, Task.passes, Pattern.firm, Pattern.passes, Bool.and_eq_true] at hf hp
    cases ho
    obtain ⟨w₁, w₂, rfl, hw₁, hw₂, hvs, _⟩ := ha.parts hb hp.1 hp.2 hts hw
    have hb' := ihb rfl hf.2 hp.2 hw₂ hK hvs
    have hnext := hK.next (hw₂ ▸ hb) hb' hp.2
    have ha' := iha rfl hf.1 hp.1 hw₁ (hw₂ ▸ hnext) hts
    rw [List.append_assoc]
    exact .onto ha' hb'
  | left =>
    cases ho
    obtain rfl : w = [] := by simpa using hw
    exact .left
  | @chain n a ahead link l ts ys vs o ha hl iha ihl =>
    simp only [Task.firm, Task.passes, Pattern.firm, Pattern.passes, Bool.and_eq_true] at hf hp ihl
    cases ho
    obtain ⟨w₁, w₂, rfl, hw₁, hw₂, hvs, _⟩ := ha.parts hl hp.1 hp.2 hts hw
    have hl' := ihl rfl ⟨⟨⟨hf.1.1.1.2, hf.1.1.2⟩, hf.1.2⟩, hf.2⟩ hp.2 hw₂ hK hvs
    have hcut := hK.cut.append w₂
    have ha' := iha rfl hf.1.1.1.1 hp.1 hw₁ (hw₂ ▸ Follow.admits_unknown hcut) hts
    rw [List.append_assoc]
    exact .chain ha' hl'
  | @label n l t ts vs name hn hl hs hu =>
    cases ho
    have ht : t.terminal ≠ .endOfInput := by intro h; simp [h, Terminal.isName] at hn
    obtain rfl : [t] = w := (Consumes.passed ht hts).eq_of_append (hu ▸ hw)
    exact .label hn hl hs (((hK.cut.terminated.2.cons t).tail ht).2.symm)
  | labelAbsent hn =>
    cases ho
    simp only [Task.firm, Pattern.firm, Bool.not_eq_true'] at hf
    obtain rfl : w = [] := by simpa using hw
    obtain ⟨t, rest, rest', hrest, rfl⟩ := hK.common hf
    obtain ⟨rfl, rfl⟩ := List.cons.inj hrest
    exact .labelAbsent hn
  | linksStop hold =>
    cases ho
    simp only [Task.firm, Bool.and_eq_true] at hf
    obtain rfl : w = [] := by simpa using hw
    exact .linksStop (hK.cut.holds_eq_false hf.1.2 hold)
  | @linksMore n ahead link count l ts ys vs o hold hc ha hlt hm iha ihm =>
    have hf' := hf
    simp only [Task.firm, Bool.and_eq_true, List.all_eq_true, decide_eq_true_eq] at hf'
    cases ho
    obtain ⟨w₁, w₂, rfl, hw₁, hw₂, hvs, hwidth⟩ := ha.parts hm hp hp hts hw
    have hm' := ihm rfl hf hp hw₂ hK hvs
    have hcut := hK.cut.append w₂
    have ha' := iha rfl hf'.1.1.1 hp hw₁ (hw₂ ▸ Follow.admits_unknown hcut) hts
    -- A link reads all that its lookahead asks about.
    have hold' : ahead.holds (w₁ ++ (w₂ ++ us')) = true :=
      Lookahead.holds_congr (hw₁ ▸ hold) (fun ks hks => Nat.le_trans (hf'.2 ks hks) hwidth)
        (hcut.append w₁).terminated.2.ne_nil
    rw [List.append_assoc]
    exact .linksMore hold' hc ha' (by simp only [List.length_append]; omega) hm'
  | linksOnce hold hc ha hle iha =>
    simp only [Task.firm, Bool.and_eq_true, decide_eq_true_eq] at hf
    obtain ⟨w₁, hw₁, hwidth⟩ := ha.wide hp hts
    rw [hw₁.split, List.length_append] at hle
    omega
  | last | collapse => cases hf
  | _ => cases ho

end PlsqlLint
