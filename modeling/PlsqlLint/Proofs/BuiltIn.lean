import PlsqlLint.Check.Catalog
import PlsqlLint.Proofs.Precedence
import PlsqlLint.Proofs.Walk

/-!
# What the built-in checks report of a tree

The built-in checks are called on entering the comparisons of a tree, whatever the tree is, and nowhere else do they
report anything.  They do not fail: where there is a relational operator among the children, there is a first and a last
child, so no operand is missing (`Check.identicalOperandIssues_eq`).  Hence a scan is a function of the tree
(`Engine.scan_eq_remarks`), and the engine is the same as before.
-/

namespace PlsqlLint

/-! ### The text of an operator -/

namespace Tree

/-- The text of the first token that the tree covers. -/
def firstText (t : Tree) : String := (t.tokens.head?.map (·.literal)).getD ""

/-- The text of an operator in a message: that of the first tree without children, in the order of the nodes, if this is
a token. -/
def operatorText (t : Tree) : String :=
  match t.descendants.find? (·.children.isEmpty) with
  | some (.leaf token) => token.literal
  | _ => ""

/-- No node of the tree is without children. -/
def filled (t : Tree) : Bool := t.descendants.all fun u => u.isLeaf || !u.children.isEmpty

private theorem operatorText_leaf (token : Token) : (leaf token).operatorText = token.literal := by
  rw [operatorText, descendants_leaf]
  rfl

private theorem operatorText_nil (r : Rule) (sp : Span) : (node r sp []).operatorText = "" := by
  rw [operatorText, descendants_node]
  rfl

/-- Going down the first children, one comes to a tree without children. -/
private theorem exists_childless (t : Tree) : ∃ u, t.descendants.find? (·.children.isEmpty) = some u := by
  induction t with
  | leaf token => exact ⟨_, by rw [descendants_leaf]; rfl⟩
  | node r sp ts ih =>
    cases ts with
    | nil => exact ⟨_, by rw [descendants_node]; rfl⟩
    | cons t ts =>
      obtain ⟨u, hu⟩ := ih t List.mem_cons_self
      refine ⟨u, ?_⟩
      rw [descendants_node, List.find?_cons_of_neg (by simp [children]), List.flatMap_cons, List.find?_append, hu]
      rfl

private theorem operatorText_cons (r : Rule) (sp : Span) (t : Tree) (ts : List Tree) :
    (node r sp (t :: ts)).operatorText = t.operatorText := by
  obtain ⟨u, hu⟩ := t.exists_childless
  rw [operatorText, descendants_node, List.find?_cons_of_neg (by simp [children]), List.flatMap_cons, List.find?_append,
    operatorText, hu]
  rfl

/-- It is what is found by following the first children. -/
theorem value?_getD (t : Tree) : t.value?.getD "" = t.operatorText := by
  induction t with
  | leaf token => rw [operatorText_leaf]; rfl
  | node r sp ts ih =>
    cases ts with
    | nil => rw [operatorText_nil]; rfl
    | cons t ts =>
      rw [operatorText_cons, ← ih t List.mem_cons_self]
      rfl

theorem filled_of_wellShaped {t : Tree} (h : t.WellShaped) : t.filled = true := by
  refine List.all_eq_true.2 fun u hu => ?_
  have hshaped := h u hu
  cases u with
  | leaf token => rfl
  | node r sp ts =>
    rw [shaped, Bool.and_eq_true] at hshaped
    exact hshaped.1

theorem filled_of_mem {r : Rule} {sp : Span} {ts : List Tree} (h : (node r sp ts).filled = true) {t : Tree}
    (ht : t ∈ ts) : t.filled = true := by
  rw [filled, descendants_node, List.all_cons, Bool.and_eq_true, List.all_flatMap] at h
  exact List.all_eq_true.1 h.2 t ht

/-- Where no node is without children, it is the text of the first token. -/
private theorem head?_tokens_of_filled {t : Tree} (h : t.filled = true) :
    ∃ token, t.tokens.head? = some token ∧ t.operatorText = token.literal := by
  induction t with
  | leaf token => exact ⟨token, by rw [tokens_leaf]; rfl, operatorText_leaf token⟩
  | node r sp ts ih =>
    cases ts with
    | nil =>
      rw [filled, descendants_node] at h
      cases h
    | cons t ts =>
      obtain ⟨token, hhead, htext⟩ := ih t List.mem_cons_self (filled_of_mem h List.mem_cons_self)
      refine ⟨token, ?_, (operatorText_cons r sp t ts).trans htext⟩
      rw [tokens_node, leaves_cons, List.head?_append, hhead]
      rfl

theorem operatorText_of_filled {t : Tree} (h : t.filled = true) : t.operatorText = t.firstText := by
  obtain ⟨token, hhead, htext⟩ := head?_tokens_of_filled h
  rw [firstText, hhead, htext]
  rfl

end Tree

/-! ### One comparison -/

namespace Tree

/-- The issues of the first and the last child of a comparison, if there is a relational operator among its children:
that they are equal, where the message has the text of the operator, and that one of them is the literal `NULL`. -/
def remarksWith (text : Tree → String) (t : Tree) : List Issue :=
  match t.firstOf? (.rule .relationalOperator), t.firstChild?, t.lastChild? with
  | some operator, some first, some last =>
    (if first.equal last then
      [⟨Check.identicalOperandsEntry, fillTemplate Check.identicalOperandsEntry.template [text operator],
        ⟨first.span, none⟩, [⟨last.span, some "Original"⟩]⟩]
    else []) ++
    (if first.is (.rule .nullLiteral) || last.is (.rule .nullLiteral) then
      [⟨Check.nullOperandEntry, fillTemplate Check.nullOperandEntry.template [], ⟨t.span, none⟩, []⟩]
    else [])
  | _, _, _ => []

/-- The issues that the built-in checks report of a comparison. -/
def remarks (t : Tree) : List Issue := t.remarksWith operatorText

/-- Whether the tree is a comparison with a relational operator among its children. -/
def isRelation (t : Tree) : Bool := t.is (.rule .comparisonExpression) && t.hasChild (.rule .relationalOperator)

/-- A tree with a child of some symbol has a first and a last child. -/
private theorem exists_ends_of_firstOf? {t child : Tree} {symbol : Symbol} (h : t.firstOf? symbol = some child) :
    ∃ first last, t.firstChild? = some first ∧ t.lastChild? = some last := by
  have hne : t.children ≠ [] := List.ne_nil_of_mem (List.mem_of_find?_eq_some h)
  exact ⟨_, _, List.head?_eq_some_head hne, List.getLast?_eq_some_getLast hne⟩

theorem remarks_of_none {t : Tree} (h : t.firstOf? (.rule .relationalOperator) = none) : t.remarks = [] := by
  rw [remarks, remarksWith, h]

/-- Only the text of the relational operator counts. -/
theorem remarksWith_congr {f g : Tree → String} {t : Tree}
    (h : ∀ operator ∈ t.children, operator.is (.rule .relationalOperator) = true → f operator = g operator) :
    t.remarksWith f = t.remarksWith g := by
  unfold remarksWith
  split
  · rename_i operator first last ho _ _
    have hrule : operator.is (.rule .relationalOperator) = true := by simpa using List.find?_some ho
    have hsame : f operator = g operator := h operator (List.mem_of_find?_eq_some ho) hrule
    rw [hsame]
  · rfl

/-- A comparison without a relational operator is not reported. -/
theorem remarks_of_comparison (t : Tree) :
    (if t.is (.rule .comparisonExpression) then t.remarks else []) = if t.isRelation then t.remarks else [] := by
  cases ho : t.firstOf? (.rule .relationalOperator) with
  | none => simp [remarks_of_none ho]
  | some operator => simp [isRelation, hasChild, ho]

end Tree

namespace Check

/-- The part of the remarks that the check for identical operands makes.  It finds all the children that it looks
for. -/
theorem identicalOperandIssues_eq (t : Tree) :
    ∃ issues, identicalOperandIssues t = .ok issues ∧ issues ++ nullOperandIssues t = t.remarks := by
  cases ho : t.firstOf? (.rule .relationalOperator) with
  | none =>
    refine ⟨[], ?_, ?_⟩
    · rw [identicalOperandIssues, ho]
      rfl
    · rw [Tree.remarks_of_none ho]
      simp [nullOperandIssues, Tree.hasChild, ho]
  | some operator =>
    obtain ⟨first, last, hfirst, hlast⟩ := Tree.exists_ends_of_firstOf? ho
    refine ⟨if first.equal last then
      [(identicalOperandsEntry.issue first [operator.operatorText]).also last "Original"] else [], ?_, ?_⟩
    · rw [identicalOperandIssues, ho, hfirst, hlast]
      simp only [CheckError.orMissing, bind, Except.bind, Tree.value?_getD]
      split
      · rfl
      · rfl
    · simp [Tree.remarks, Tree.remarksWith, nullOperandIssues, Tree.hasChild, ho, hfirst, hlast, Metadata.issue,
        Metadata.issueWith, Issue.also]

end Check

/-! ### Checks that remember nothing -/

/-- Calls of checks that neither change nor fail: what they report is added to the issues, and nothing else happens. -/
theorem Scan.callAll_of_still {s : Scan} {calls : List Call} (f : Call → List Issue)
    (h : ∀ c ∈ calls, ∃ slot, s.slots[c.index]? = some slot ∧ slot.disabled = false ∧
      slot.answer c = (⟨c, f c, none⟩, slot)) :
    (s.callAll calls).outcome = ⟨s.outcome.issues ++ calls.flatMap f, s.outcome.diagnostics⟩ ∧
    (s.callAll calls).slots = s.slots := by
  induction calls generalizing s with
  | nil => simp [callAll]
  | cons c calls ih =>
    obtain ⟨slot, hslot, hd, hanswer⟩ := h c List.mem_cons_self
    have hslots : (s.answered c.index (slot.answer c)).slots = s.slots := by
      obtain ⟨hlt, rfl⟩ := List.getElem?_eq_some_iff.1 hslot
      rw [hanswer]
      exact List.set_getElem_self hlt
    rw [← hslots] at h ⊢
    rw [callAll_cons, call_enabled hslot hd]
    obtain ⟨houtcome, hlast⟩ := ih fun c' hc' => h c' (List.mem_cons_of_mem _ hc')
    refine ⟨?_, hlast⟩
    rw [houtcome]
    simp [answered, outcome, hanswer, LogEntry.kept]

/-- A check that does not fail where it is called stays as it is. -/
private theorem Slot.answer_onVisit {m : Metadata} {symbols : List Symbol}
    {visit : Tree → Except CheckError (List Issue)} {c : Call} {issues : List Issue} (h : visit c.tree = .ok issues) :
    Slot.answer ⟨.onVisit m symbols visit, false⟩ c =
      (⟨c, if c.occasion = .enterNode then issues else [], none⟩, ⟨.onVisit m symbols visit, false⟩) := by
  obtain ⟨i, occasion, t⟩ := c
  cases occasion with
  | enterNode =>
    simp only [answer, Check.onVisit, h]
    rfl
  | openUnit | leaveNode | closeUnit => rfl

/-- A tour on which nothing is done on leaving goes through the tree as `Tree.descendants` does. -/
theorem Tree.tour_enter {α : Type} (enter : Tree → List α) (t : Tree) :
    t.tour enter (fun _ => []) = t.descendants.flatMap enter := by
  induction t with
  | leaf token =>
    rw [tour, descendants_leaf]
    simp
  | node rule span ts ih =>
    rw [tour_eq, descendants_node, List.flatMap_cons, List.append_nil, children, List.flatMap_assoc]
    congr 1
    exact List.flatMap_congr ih

/-! ### Scans with the built-in checks -/

namespace Engine

private theorem subscribers_builtIn (symbol : Symbol) :
    (Engine.mk Check.builtIn).subscribers symbol = if symbol = .rule .comparisonExpression then [0, 1] else [] := by
  by_cases h : symbol = .rule .comparisonExpression
  · simp [h, subscribers, Check.builtIn, Check.identicalOperands, Check.nullOperand, Check.onEnter, Check.onVisit,
      Check.subscribesTo]
  · simp [h, subscribers, Check.builtIn, Check.identicalOperands, Check.nullOperand, Check.onEnter, Check.onVisit,
      Check.subscribesTo]

/-- What the built-in checks report when they are called. -/
def builtInReport (c : Call) : List Issue :=
  if c.occasion = .enterNode then
    if c.index = 0 then (Check.identicalOperandIssues c.tree).toOption.getD [] else Check.nullOperandIssues c.tree
  else []

private theorem builtInReport_calls {occasion : Occasion} (h : occasion ≠ .enterNode) (indices : List Nat) (t : Tree) :
    (indices.map (Call.mk · occasion t)).flatMap builtInReport = [] := by
  simp [builtInReport, h]

/-- On entering a comparison both checks report, the one after the other. -/
private theorem builtInReport_entering (t : Tree) :
    ((Engine.mk Check.builtIn).entering t).flatMap builtInReport =
      if t.is (.rule .comparisonExpression) then t.remarks else [] := by
  obtain ⟨issues, hvisit, hremarks⟩ := Check.identicalOperandIssues_eq t
  rw [entering, subscribers_builtIn]
  by_cases h : t.symbol = .rule .comparisonExpression
  · simp [h, Tree.is, builtInReport, hvisit, ← hremarks, Except.toOption]
  · simp [h, Tree.is]

/-- No call changes a built-in check or makes it fail. -/
theorem still_builtIn {c : Call} (h : c.index < 2) :
    ∃ slot, (Scan.start Check.builtIn).slots[c.index]? = some slot ∧ slot.disabled = false ∧
      slot.answer c = (⟨c, builtInReport c, none⟩, slot) := by
  obtain ⟨i, occasion, t⟩ := c
  obtain ⟨issues, hvisit, -⟩ := Check.identicalOperandIssues_eq t
  match i, h with
  | 0, _ =>
    have hreport : builtInReport ⟨0, occasion, t⟩ = if occasion = .enterNode then issues else [] := by
      simp [builtInReport, hvisit, Except.toOption]
    rw [hreport]
    exact ⟨_, rfl, rfl, Slot.answer_onVisit (c := ⟨0, occasion, t⟩) hvisit⟩
  | 1, _ => exact ⟨_, rfl, rfl, Slot.answer_onVisit (c := ⟨1, occasion, t⟩) rfl⟩

/-- The built-in checks report of every comparison, and of nothing else. -/
theorem run_builtIn (root : Tree) :
    ((Engine.mk Check.builtIn).run root).outcome =
      ⟨root.descendants.flatMap fun t => if t.is (.rule .comparisonExpression) then t.remarks else [], []⟩ ∧
    ((Engine.mk Check.builtIn).run root).slots = (Scan.start Check.builtIn).slots := by
  rw [run_eq]
  obtain ⟨houtcome, hslots⟩ := Scan.callAll_of_still (s := Scan.start Check.builtIn) builtInReport
    fun c hc => still_builtIn (lt_of_mem_course (e := ⟨Check.builtIn⟩) hc)
  refine ⟨houtcome.trans ?_, hslots⟩
  have henter := funext builtInReport_entering
  have hleave : (fun t => ((Engine.mk Check.builtIn).leaving t).flatMap builtInReport) = fun _ => [] := by
    funext t
    exact builtInReport_calls (by decide) _ t
  rw [course, List.flatMap_append, List.flatMap_append, builtInReport_calls (by decide),
    builtInReport_calls (by decide), Tree.tour_hom (List.flatMap _) rfl (fun _ _ => List.flatMap_append), henter,
    hleave, Tree.tour_enter, List.nil_append, List.append_nil]
  rfl

theorem outcome_builtIn (root : Tree) :
    ((Engine.mk Check.builtIn).scan root).1 =
      ⟨root.descendants.flatMap fun t => if t.is (.rule .comparisonExpression) then t.remarks else [], []⟩ :=
  (run_builtIn root).1

/-- The built-in checks never fail, and what they report is a function of the tree, whatever the tree is: for each
comparison with a relational operator among its children, in the order of the nodes, that its first and its last child
are equal, and then that one of them is the literal `NULL`.  The engine is the same as before.

The text of the operator in a message is that of its first token if no node of it is without children.  Otherwise it may
be empty, although there is a token. -/
theorem scan_eq_remarks (root : Tree) :
    (Engine.mk Check.builtIn).scan root =
      (⟨root.descendants.flatMap fun t => if t.isRelation then t.remarksWith Tree.operatorText else [], []⟩,
        ⟨Check.builtIn⟩) ∧
    ((∀ t ∈ root.descendants, t.is (.rule .relationalOperator) = true → t.filled = true) →
      ((Engine.mk Check.builtIn).scan root).1 =
        ⟨root.descendants.flatMap fun t => if t.isRelation then t.remarksWith Tree.firstText else [], []⟩) := by
  obtain ⟨houtcome, hslots⟩ := run_builtIn root
  simp only [Tree.remarks_of_comparison] at houtcome
  refine ⟨?_, fun hfilled => ?_⟩
  · unfold scan
    dsimp only
    rw [houtcome, hslots]
    rfl
  · refine houtcome.trans ?_
    congr 1
    refine List.flatMap_congr fun t ht => ?_
    split
    · refine Tree.remarksWith_congr fun operator ho hrule => Tree.operatorText_of_filled (hfilled operator ?_ hrule)
      exact Tree.mem_descendants_of_mem_children ht ho
    · rfl

/-- Something is compared with itself, and the message has the operator. -/
theorem scan_eq_remarks_equals :
    let left : Tree := .leaf ⟨.identifier, "x", ⟨⟨1, 0, 0⟩, ⟨1, 1, 1⟩⟩, []⟩
    let operator : Tree := .node .relationalOperator ⟨⟨1, 1, 1⟩, ⟨1, 2, 2⟩⟩
      [.leaf ⟨.equals, "=", ⟨⟨1, 1, 1⟩, ⟨1, 2, 2⟩⟩, []⟩]
    let right : Tree := .leaf ⟨.identifier, "X", ⟨⟨1, 2, 2⟩, ⟨1, 3, 3⟩⟩, []⟩
    let root : Tree := .node .comparisonExpression ⟨⟨1, 0, 0⟩, ⟨1, 3, 3⟩⟩ [left, operator, right]
    (∀ t ∈ root.descendants, t.is (.rule .relationalOperator) = true → t.filled = true) ∧
    ((Engine.mk Check.builtIn).scan root).1 =
      ⟨[⟨Check.identicalOperandsEntry, "Identical sub-expressions on both sides of operator \"=\".",
        ⟨left.span, none⟩, [⟨right.span, some "Original"⟩]⟩], []⟩ := by
  intro left operator right root
  have hfilled : ∀ t ∈ root.descendants, t.is (.rule .relationalOperator) = true → t.filled = true := by
    have hall : root.descendants.all (fun t => !t.is (.rule .relationalOperator) || t.filled) = true := by
      dsimp only [root, left, operator, right]
      cbv
    simpa [List.all_eq_true, Decidable.imp_iff_not_or] using hall
  refine ⟨hfilled, ?_⟩
  rw [(scan_eq_remarks root).2 hfilled]
  dsimp only [root, left, operator, right]
  cbv

/-- The first node in the operator has no children, and the token of the operator is behind it. -/
theorem outcome_ne_firstText :
    let x : Tree := .leaf (.bare .identifier "x")
    let operator : Tree := .node .relationalOperator default
      [.node .relationalOperator default [], .leaf (.bare .equals "=")]
    let root : Tree := .node .comparisonExpression default [x, operator, x]
    operator.firstText = "=" ∧
    ((Engine.mk Check.builtIn).scan root).1.issues.map (·.message) =
      ["Identical sub-expressions on both sides of operator \"\"."] ∧
    ((Engine.mk Check.builtIn).scan root).1 ≠
      ⟨root.descendants.flatMap fun t => if t.isRelation then t.remarksWith Tree.firstText else [], []⟩ := by
  intro x operator root
  have hmessages : ((Engine.mk Check.builtIn).scan root).1.issues.map (·.message) =
      ["Identical sub-expressions on both sides of operator \"\"."] := by
    dsimp only [root, operator, x]
    cbv
  have hclaimed : (root.descendants.flatMap fun t => if t.isRelation then t.remarksWith Tree.firstText else []).map
      (·.message) = ["Identical sub-expressions on both sides of operator \"=\"."] := by
    dsimp only [root, operator, x]
    cbv
  refine ⟨by dsimp only [operator]; cbv, hmessages, ?_⟩
  intro heq
  rw [heq] at hmessages
  exact absurd (hclaimed.symm.trans hmessages) (by decide)

end Engine

end PlsqlLint
