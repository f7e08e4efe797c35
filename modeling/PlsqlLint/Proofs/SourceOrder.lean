import PlsqlLint.Analysis.Basic
import PlsqlLint.Proofs.BuiltIn
import PlsqlLint.Proofs.Spans

/-!
# Issues in the order of the source

The nodes of a parsed tree start in the order in which they are listed, parents before children and children from left
to right (`Tree.AllSpanned.pairwise_start`).  Both built-in checks point at the start of the comparison: the one at its
first operand, which starts where the comparison does, and the other at the whole of it
(`Tree.AllSpanned.start_of_mem_remarks`).  So the issues of a unit come in the order of the source
(`Analyzer.analyze_pairwise`).
-/

namespace PlsqlLint

/-! ### Where nodes start -/

/-- Of tokens that lie one behind the other, the first starts before any of them. -/
private theorem Token.InOrder.head_reaches {first : Token} {ts : List Token} (h : InOrder ts)
    (hfirst : ts.head? = some first) {t : Token} (ht : t ∈ ts) : first.span.start.Reaches t.span.start := by
  obtain ⟨rest, rfl⟩ := List.head?_eq_some_iff.1 hfirst
  rcases List.mem_cons.1 ht with rfl | ht
  · exact .refl _
  · exact (h.each first List.mem_cons_self).trans ((List.pairwise_cons.1 h.apart).1 t ht)

namespace Tree.AllSpanned

variable {t u : Tree}

/-- A tree starts with its first leaf. -/
private theorem start_eq (h : t.AllSpanned) (ho : Token.InOrder t.tokens) :
    ∃ first, t.tokens.head? = some first ∧ t.span.start = first.span.start := by
  obtain ⟨first, last, hfirst, -, hspan⟩ := Token.extent?_eq_some.1 (h.extent?_tokens ho)
  exact ⟨first, hfirst, by rw [hspan]⟩

private theorem of_mem (h : t.AllSpanned) (hu : u ∈ t.descendants) : u.AllSpanned :=
  fun v hv => h v (mem_descendants_trans hu hv)

/-- A node below the root starts with one of its leaves. -/
private theorem start_mem (h : t.AllSpanned) (ho : Token.InOrder t.tokens) (hu : u ∈ t.descendants) :
    ∃ x ∈ t.tokens, u.span.start = x.span.start := by
  have hinfix := tokens_isInfix hu
  obtain ⟨x, hx, hstart⟩ := (h.of_mem hu).start_eq (ho.of_isInfix hinfix)
  exact ⟨x, hinfix.subset (List.mem_of_mem_head? hx), hstart⟩

/-- The root starts before all nodes below it. -/
theorem start_reaches (h : t.AllSpanned) (ho : Token.InOrder t.tokens) (hu : u ∈ t.descendants) :
    t.span.start.Reaches u.span.start := by
  obtain ⟨first, hfirst, hstart⟩ := h.start_eq ho
  obtain ⟨x, hx, hstart'⟩ := h.start_mem ho hu
  rw [hstart, hstart']
  exact ho.head_reaches hfirst hx

/-- The nodes of a tree start in the order in which they are listed. -/
theorem pairwise_start (h : t.AllSpanned) (ho : Token.InOrder t.tokens) :
    t.descendants.Pairwise fun a b => a.span.start.Reaches b.span.start := by
  induction t with
  | leaf token =>
    rw [descendants_leaf]
    exact List.pairwise_singleton _ _
  | node r sp ts ih =>
    have hroot := fun u hu => h.start_reaches ho (u := u) hu
    rw [descendants_node, List.forall_mem_cons] at hroot
    rw [descendants_node, List.pairwise_cons, List.pairwise_flatMap]
    have hchildren := (allSpanned_node.1 h).2
    rw [tokens_node] at ho
    have horder : ∀ c ∈ ts, Token.InOrder c.tokens := by
      intro c hc
      obtain ⟨before, behind, rfl⟩ := List.append_of_mem hc
      exact ho.of_isInfix ⟨leaves before, leaves behind, by simp⟩
    refine ⟨hroot.2, fun c hc => ih c hc (hchildren c hc) (horder c hc), ?_⟩
    -- what starts in one child has stopped before the next
    have hapart := (List.pairwise_flatMap.1 ho.apart).2
    refine (List.Pairwise.and_mem.1 hapart).imp ?_
    rintro a b ⟨ha, hb, hab⟩ u hu v hv
    obtain ⟨x, hx, hstart⟩ := (hchildren a ha).start_mem (horder a ha) hu
    obtain ⟨y, hy, hstart'⟩ := (hchildren b hb).start_mem (horder b hb) hv
    rw [hstart, hstart']
    exact ((horder a ha).each x hx).trans (hab x hx y hy)

/-- The first child starts where the node does. -/
private theorem start_firstChild (h : t.AllSpanned) (ho : Token.InOrder t.tokens) (hu : t.firstChild? = some u) :
    u.span.start = t.span.start := by
  cases t with
  | leaf token => cases hu
  | node r sp ts =>
    obtain ⟨more, rfl⟩ : ∃ more, ts = u :: more := List.head?_eq_some_iff.1 hu
    have hmem : u ∈ (Tree.node r sp (u :: more)).descendants := by
      rw [descendants_node, List.flatMap_cons]
      exact List.mem_cons_of_mem _ (List.mem_append_left _ u.mem_descendants_self)
    obtain ⟨first, hfirst, hstart⟩ := h.start_eq ho
    obtain ⟨x, hx, hstart'⟩ := (h.of_mem hmem).start_eq (ho.of_isInfix (tokens_isInfix hmem))
    rw [tokens_node, leaves_cons, List.head?_append, hx, Option.some_or] at hfirst
    rw [hstart, hstart', Option.some.inj hfirst]

/-- Whatever is reported of a comparison is reported at its start. -/
theorem start_of_mem_remarks (h : t.AllSpanned) (ho : Token.InOrder t.tokens) {i : Issue} (hi : i ∈ t.remarks) :
    i.primary.span.start = t.span.start := by
  unfold remarks remarksWith at hi
  split at hi
  · rename_i operator first last _ hfirst _
    rcases List.mem_append.1 hi with hi | hi
    · split at hi
      · rw [List.mem_singleton.1 hi]
        exact h.start_firstChild ho hfirst
      · cases hi
    · split at hi
      · rw [List.mem_singleton.1 hi]
      · cases hi
  · cases hi

end Tree.AllSpanned

/-- Of one comparison, identical operands are reported before the literal `NULL`, and each at most once. -/
theorem Tree.pairwise_remarks (t : Tree) :
    t.remarks.Pairwise fun a b => a.source = Check.identicalOperandsEntry ∧ b.source = Check.nullOperandEntry := by
  unfold remarks remarksWith
  split
  · split
    · split <;> simp
    · split <;> simp
  · exact .nil

/-! ### The issues of a unit -/

namespace Issue

/-- The issue starts where the other does or before it, by lines and columns as well as by offsets. -/
def StartsBy (a b : Issue) : Prop :=
  (a.primary.line < b.primary.line ∨ a.primary.line = b.primary.line ∧ a.primary.column ≤ b.primary.column) ∧
  a.primary.span.start.offset ≤ b.primary.span.start.offset

instance (a b : Issue) : Decidable (a.StartsBy b) := inferInstanceAs (Decidable (_ ∧ _))

private theorem startsBy_of_reaches {a b : Issue} (h : a.primary.span.start.Reaches b.primary.span.start) :
    a.StartsBy b := by
  have hle := h.le
  rw [Position.le_iff, Position.lt_iff] at hle
  refine ⟨?_, h.offset_le⟩
  unfold Location.line Location.column
  omega

end Issue

namespace Tree

/-- The issues of the comparisons of a tree, each with the number of its comparison among the nodes of the tree. -/
def numberedRemarks (root : Tree) : List (Nat × Issue) :=
  root.descendants.zipIdx.flatMap fun x => (if x.1.isRelation then x.1.remarks else []).map (x.2, ·)

private theorem map_snd_numberedRemarks (root : Tree) :
    root.numberedRemarks.map (·.2) = root.descendants.flatMap fun t => if t.isRelation then t.remarks else [] := by
  unfold numberedRemarks
  rw [List.map_flatMap]
  simp only [List.map_map, Function.comp_def, List.map_id']
  conv_rhs => rw [← List.zipIdx_map_fst 0 root.descendants, List.flatMap_map]

private theorem exists_of_mem_numberedRemarks {root : Tree} {n : Nat} {i : Issue} (h : (n, i) ∈ root.numberedRemarks) :
    ∃ t, root.descendants[n]? = some t ∧ t.isRelation = true ∧ i ∈ t.remarks := by
  obtain ⟨⟨t, m⟩, ht, hi⟩ := List.mem_flatMap.1 h
  obtain ⟨j, hj, heq⟩ := List.mem_map.1 hi
  cases heq
  refine ⟨t, List.mem_zipIdx_iff_getElem?.1 ht, ?_⟩
  by_cases hr : t.isRelation = true
  · rw [if_pos hr] at hj
    exact ⟨hr, hj⟩
  · rw [if_neg hr] at hj
    cases hj

/-- The issues of a tree start in their order; two of one comparison are those of the two checks, the check for
identical operands first. -/
theorem AllSpanned.pairwise_numberedRemarks {root : Tree} (h : root.AllSpanned) (ho : Token.InOrder root.tokens) :
    root.numberedRemarks.Pairwise fun x y => x.2.StartsBy y.2 ∧
      (x.1 = y.1 → x.2.source = Check.identicalOperandsEntry ∧ y.2.source = Check.nullOperandEntry) := by
  have hstart : ∀ x ∈ root.descendants.zipIdx, ∀ i ∈ (if x.1.isRelation then x.1.remarks else []),
      i.primary.span.start = x.1.span.start := by
    rintro ⟨t, n⟩ hx i hi
    have ht : t ∈ root.descendants := List.mem_of_getElem? (List.mem_zipIdx_iff_getElem?.1 hx)
    split at hi
    · exact (h.of_mem ht).start_of_mem_remarks (ho.of_isInfix (tokens_isInfix ht)) hi
    · cases hi
  rw [numberedRemarks, List.pairwise_flatMap]
  constructor
  · -- of one comparison
    intro x hx
    have hremarks : (if x.1.isRelation then x.1.remarks else []).Pairwise fun a b =>
        a.source = Check.identicalOperandsEntry ∧ b.source = Check.nullOperandEntry := by
      split
      · exact x.1.pairwise_remarks
      · exact .nil
    rw [List.pairwise_map]
    refine (List.Pairwise.and_mem.1 hremarks).imp ?_
    rintro a b ⟨ha, hb, hsources⟩
    refine ⟨Issue.startsBy_of_reaches ?_, fun _ => hsources⟩
    rw [hstart x hx a ha, hstart x hx b hb]
    exact .refl _
  · -- of two comparisons, which have different numbers
    have hpairs : root.descendants.zipIdx.Pairwise fun x y => x.1.span.start.Reaches y.1.span.start ∧ x.2 ≠ y.2 := by
      rw [List.pairwise_iff_getElem]
      intro i j hi hj hij
      rw [List.getElem_zipIdx, List.getElem_zipIdx]
      exact ⟨List.pairwise_iff_getElem.1 (h.pairwise_start ho) i j _ _ hij, by omega⟩
    refine (List.Pairwise.and_mem.1 hpairs).imp ?_
    rintro x y ⟨hx, hy, hreaches, hne⟩ r hr s hs
    obtain ⟨a, ha, rfl⟩ := List.mem_map.1 hr
    obtain ⟨b, hb, rfl⟩ := List.mem_map.1 hs
    refine ⟨Issue.startsBy_of_reaches ?_, fun heq => absurd heq hne⟩
    rw [hstart x hx a ha, hstart y hy b hb]
    exact hreaches

end Tree

namespace Analyzer

/-- A unit that is analysed has a tree, whose nodes have the spans of their leaves and whose leaves are in order, and
its outcome is that of a scan of this tree. -/
theorem exists_of_outcome_analyze {config : Config} {host : Host} {unit : SourceUnit} {o : Outcome}
    (h : ((standard config host).analyze unit).outcome = .ok o) :
    ∃ root, (standard config host).parse unit.text = .ok root ∧ root.AllSpanned ∧ Token.InOrder root.tokens ∧
      o = ((Engine.mk Check.builtIn).scan root).1 := by
  unfold analyze analyzeWith analyzeWithin at h
  split at h
  · cases h
  · rename_i root hroot
    refine ⟨root, hroot, ?_⟩
    unfold parseWithin at hroot
    split at hroot
    · cases hroot
    · rename_i p hp
      split at hroot
      · rename_i tree htree
        cases hroot
        obtain ⟨ts, b, hall, hinfix, hspanned⟩ := Parser.exists_takesAll hp htree
        exact ⟨hspanned, hall.inOrder.1.of_isInfix hinfix, (Except.ok.inj h).symm⟩
      · cases hroot

/-- The issues of a unit come in the order of the source: no issue starts behind a later one, by lines and columns or
by offsets.  Each is about one comparison of the tree, and of two issues about the same comparison the first is that
its operands are identical and the second that one of them is `NULL`. -/
theorem analyze_pairwise (config : Config) (host : Host) (unit : SourceUnit) (o : Outcome)
    (h : ((standard config host).analyze unit).outcome = .ok o) :
    o.issues.Pairwise Issue.StartsBy ∧
    ∃ (root : Tree) (numbered : List (Nat × Issue)),
      (standard config host).parse unit.text = .ok root ∧ numbered.map (·.2) = o.issues ∧
      (∀ x ∈ numbered, ∃ t, root.descendants[x.1]? = some t ∧ t.isRelation = true ∧ x.2 ∈ t.remarks) ∧
      numbered.Pairwise fun x y => x.1 = y.1 →
        x.2.source.key = "IdenticalExpression" ∧ y.2.source.key = "ComparisonWithNull" := by
  obtain ⟨root, hroot, hspanned, horder, rfl⟩ := exists_of_outcome_analyze h
  have hpairs := hspanned.pairwise_numberedRemarks horder
  have hissues : root.numberedRemarks.map (·.2) = ((Engine.mk Check.builtIn).scan root).1.issues := by
    simp only [Engine.outcome_builtIn, Tree.remarks_of_comparison, Tree.map_snd_numberedRemarks]
  refine ⟨?_, root, root.numberedRemarks, hroot, hissues, fun x hx => Tree.exists_of_mem_numberedRemarks hx, ?_⟩
  · rw [← hissues, List.pairwise_map]
    exact hpairs.imp And.left
  · refine hpairs.imp ?_
    rintro x y ⟨-, hsame⟩ heq
    obtain ⟨hx, hy⟩ := hsame heq
    rw [hx, hy]
    exact ⟨rfl, rfl⟩

/-- A comparison with `NULL`, with another one on its left that is opened by a bracket: the outer one starts first. -/
theorem analyze_pairwise_nested :
    let config : Config := ⟨24, 1, Config.defaultWorkerStack⟩
    let host : Host := ⟨1, fun _ _ => true, (Limits.forDepth 24).stackUse⟩
    let unit : SourceUnit := ⟨"nested", "EXIT WHEN (NULL=null)=NULL;"⟩
    ∃ o, ((standard config host).analyze unit).outcome = .ok o ∧
      o.issues.map (fun i => (i.source.key, i.primary.column)) =
        [("ComparisonWithNull", 10), ("IdenticalExpression", 11), ("ComparisonWithNull", 11)] ∧
      o.issues.Pairwise Issue.StartsBy := by
  intro config host unit
  let blank (n : Nat) : Trivia := ⟨.whitespace, " ", ⟨⟨1, n, n⟩, ⟨1, n + 1, n + 1⟩⟩⟩
  let tokens : List Token :=
    [⟨.keyword .EXIT, "EXIT", ⟨⟨1, 0, 0⟩, ⟨1, 4, 4⟩⟩, []⟩,
     ⟨.keyword .WHEN, "WHEN", ⟨⟨1, 5, 5⟩, ⟨1, 9, 9⟩⟩, [blank 4]⟩,
     ⟨.leftParen, "(", ⟨⟨1, 10, 10⟩, ⟨1, 11, 11⟩⟩, [blank 9]⟩,
     ⟨.keyword .NULL, "NULL", ⟨⟨1, 11, 11⟩, ⟨1, 15, 15⟩⟩, []⟩,
     ⟨.equals, "=", ⟨⟨1, 15, 15⟩, ⟨1, 16, 16⟩⟩, []⟩,
     ⟨.keyword .NULL, "null", ⟨⟨1, 16, 16⟩, ⟨1, 20, 20⟩⟩, []⟩,
     ⟨.rightParen, ")", ⟨⟨1, 20, 20⟩, ⟨1, 21, 21⟩⟩, []⟩,
     ⟨.equals, "=", ⟨⟨1, 21, 21⟩, ⟨1, 22, 22⟩⟩, []⟩,
     ⟨.keyword .NULL, "NULL", ⟨⟨1, 22, 22⟩, ⟨1, 26, 26⟩⟩, []⟩,
     ⟨.semicolon, ";", ⟨⟨1, 26, 26⟩, ⟨1, 27, 27⟩⟩, []⟩,
     .endAt ⟨1, 27, 27⟩]
  have htokens : tokenize unit.text = .ok tokens := by decide +kernel
  let p := Parser.ofTokens tokens ((standard config host).limits Limits.defaultBudget)
  have hp : Parser.ofText unit.text ((standard config host).limits Limits.defaultBudget) = .ok p := by
    rw [Parser.ofText, htokens]
  have hscan : (p.parse.1.toOption.map fun root =>
      ((Engine.mk Check.builtIn).scan root).1.issues.map fun i => (i.source.key, i.primary.column)) =
      some [("ComparisonWithNull", 10), ("IdenticalExpression", 11), ("ComparisonWithNull", 11)] := by
    simp only [Engine.outcome_builtIn]
    dsimp only [p, tokens, blank, host]
    cbv
  cases hroot : p.parse.1 with
  | error e =>
    rw [hroot] at hscan
    cases hscan
  | ok root =>
    rw [hroot] at hscan
    have houtcome : ((standard config host).analyze unit).outcome = .ok ((Engine.mk Check.builtIn).scan root).1 := by
      simp only [analyze, analyzeWith, analyzeWithin, parseWithin, hp, hroot]
      rfl
    exact ⟨_, houtcome, Option.some.inj hscan, (analyze_pairwise config host unit _ houtcome).1⟩

end Analyzer

end PlsqlLint
