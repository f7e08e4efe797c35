import PlsqlLint.Proofs.Truncation
import PlsqlLint.Proofs.Precedence

/-!
# Every subtree is read again

The tokens of any inner node of a parsed tree, parsed on their own with the rule of the node, give the node again
(`parseRule_subtree`).

A node is read in the middle of a stream.  If a call has built it, the body of its rule reads the same where the stream
is cut off behind it, by truncation.  The nodes of comparisons are built around an operand, so the whole comparison is
read again; the nodes of members, attributes and calls are built one around the other, so the reference is read again up
to the link that has built the node (`Extends`).
-/

namespace PlsqlLint

deriving instance DecidableEq for Pattern

/-! ### Trees that are read again -/

namespace Tree

/-- On its own, the tree is read again from its tokens. -/
def Regained (d : Nat) (t : Tree) : Prop :=
  ∀ r, t.rule? = some r → (∀ x ∈ t.tokens, x.terminal ≠ .endOfInput) ∧
    ∀ e : Token, e.terminal = .endOfInput → Reads d r.root [] (t.tokens ++ [e]) (some ([t], [e]))

/-- All trees strictly below are read again. -/
def RegainedBelow (d : Nat) (t : Tree) : Prop := ∀ u ∈ listing t.children, u.Regained d

/-- The tree and all trees below it are read again. -/
def AllRegained (d : Nat) (t : Tree) : Prop := ∀ u ∈ t.descendants, u.Regained d

variable {d : Nat} {t : Tree}

private theorem allRegained_iff : t.AllRegained d ↔ t.Regained d ∧ t.RegainedBelow d := by
  rw [AllRegained, descendants, listing, List.append_nil]
  exact List.forall_mem_cons

private theorem allRegained_leaf (t : Token) : (Tree.leaf t).AllRegained d := by
  rw [allRegained_iff]
  constructor
  · intro r hr
    cases hr
  · intro u hu
    rw [children, listing] at hu
    cases hu

theorem mem_descendants_ofRule {r : Rule} {xs : List Tree} {p : Position} {u : Tree} (ht : t ∈ xs)
    (hu : u ∈ t.descendants) : u ∈ (ofRule r xs p).descendants := by
  rw [ofRule, descendants_node]
  exact List.mem_cons_of_mem _ (List.mem_flatMap.2 ⟨t, ht, hu⟩)

private theorem is_of_rule? {r : Rule} (h : t.rule? = some r) : t.is (.rule r) = true := by
  cases t with
  | leaf _ => cases h
  | node s sp xs =>
    cases h
    simp [is, symbol]

private theorem regainedBelow_ofRule {r : Rule} {xs : List Tree} (h : ∀ x ∈ xs, x.AllRegained d) (p : Position) :
    (ofRule r xs p).RegainedBelow d := by
  intro u hu
  rw [ofRule, children, listing_eq_flatMap] at hu
  obtain ⟨x, hx, hux⟩ := List.mem_flatMap.1 hu
  exact h x hx u hux

end Tree

namespace Pattern

/-- The rules of the nodes that the pattern builds around what is in front of it. -/
def tops : Pattern → List Rule
  | .node r _ => [r]
  | .seq a b | .orElse a b | .ifNext _ a b => a.tops ++ b.tops
  | .many a | .within _ a | .only _ _ a => a.tops
  | _ => []

/-- The pattern does not use what is in front of it. -/
def fresh : Pattern → Bool
  | .call _ => true
  | .ifNext _ a b => a.fresh && b.fresh
  | _ => false

/-- The rule on its own is the pattern with a node of the rule at the top. -/
def isRootOf (p : Pattern) (r : Rule) : Bool :=
  match r.root with
  | .only s _ q => s == r && q == p
  | _ => false

/-- Every node that the pattern builds is built by a call, or it is at the top of a pattern that reads its rule. -/
def grounded (behind : Lookahead) : Pattern → Bool
  | .empty | .room _ | .left | .fail | .reject _ | .take _ _ | .closingLabel => true
  | .advance | .last _ | .collapse _ _ => false
  | .seq a b => a.grounded (b.lead behind) && b.grounded behind
  | .orElse a b | .ifNext _ a b => a.grounded behind && b.grounded behind
  | .many a => a.grounded ((Pattern.many a).lead behind)
  | .within _ a | .only _ _ a => a.grounded behind
  | .node _ a => a.grounded behind && a.tops.isEmpty
  | .call r => r.mayPrecede behind
  | .onto a b =>
    a.grounded (b.lead behind) && b.grounded behind && a.tops.isEmpty &&
      (b.tops.all fun r => a.fresh && (Pattern.onto a b).single false && (Pattern.onto a b).lossless false &&
        (Pattern.onto a b).isRootOf r && (Pattern.onto a b).firm r.context && r.mayPrecede behind)
  | .chain a ahead link =>
    a.grounded [[]] && link.grounded [[]] && a.tops.isEmpty && a.fresh && a.single false && link.single true &&
      a.lossless false && link.lossless true && (Pattern.chain a ahead link).firm .unknown &&
      ahead.all (!·.isEmpty) && link.tops.all (Pattern.chain a ahead link).isRootOf

end Pattern

/-- What is known about the parts of a grounded chain. -/
structure GroundedChain (a : Pattern) (ahead : Lookahead) (link : Pattern) : Prop where
  operand : a.grounded [[]] = true
  linkGrounded : link.grounded [[]] = true
  tops : a.tops = []
  fresh : a.fresh = true
  single : a.single false = true
  linkSingle : link.single true = true
  lossless : a.lossless false = true
  linkLossless : link.lossless true = true
  firm : a.firm .unknown = true
  linksFirm : ∀ count, (Task.links ahead link count).firm .unknown = true
  asks : ahead.all (!·.isEmpty) = true
  isRoot : ∀ r ∈ link.tops, (Pattern.chain a ahead link).isRootOf r = true

private theorem GroundedChain.of_grounded {a link : Pattern} {ahead behind : Lookahead}
    (h : (Pattern.chain a ahead link).grounded behind = true) : GroundedChain a ahead link := by
  simp only [Pattern.grounded, Pattern.firm, Bool.and_eq_true, List.isEmpty_iff] at h
  obtain ⟨⟨⟨⟨⟨⟨⟨⟨⟨⟨ha, hl⟩, htops⟩, hfresh⟩, hsingle⟩, hsingle'⟩, hlossless⟩, hlossless'⟩, hfirm⟩, hasks⟩, hroot⟩ := h
  obtain ⟨⟨⟨⟨hfirm, hlink⟩, hwidth⟩, hpass⟩, hlength⟩ := hfirm
  refine ⟨ha, hl, htops, hfresh, hsingle, hsingle', hlossless, hlossless', hfirm, fun count => ?_, hasks,
    List.all_eq_true.1 hroot⟩
  simp only [Task.firm, Bool.and_eq_true]
  exact ⟨⟨⟨hlink, hwidth⟩, hpass⟩, hlength⟩

private theorem Rule.tops_body (r : Rule) : r.body.tops = [] := by
  cases r <;> rfl

theorem Rule.tops_root (r : Rule) : r.root.tops = [] := by
  cases r <;> rfl

theorem Rule.passes_root {r : Rule} (hr : r ≠ .fileInput) : r.root.passes = true := by
  cases r <;> first | rfl | exact absurd rfl hr

private theorem Rule.grounded_body {r : Rule} (hr : r ≠ .fileInput) : r.body.grounded r.follow = true := by
  cases r with
  | fileInput => exact absurd rfl hr
  | _ => decide +kernel

theorem Rule.grounded_root {r : Rule} (hr : r ≠ .fileInput) : r.root.grounded [[.oneOf [.endOfInput]]] = true := by
  cases r with
  | fileInput => exact absurd rfl hr
  | _ => decide +kernel

/-- The statements and slashes of a unit. -/
def Pattern.unitItems : Pattern := .many (.ifNext [[.oneOf [.divide]]] (terminal .divide) statement)

private theorem Pattern.grounded_unitItems :
    Pattern.unitItems.grounded [[.oneOf [.endOfInput]]] = true := by
  decide +kernel

private theorem Pattern.firm_unitItems : Pattern.unitItems.firm ⟨[[.oneOf [.endOfInput]]], true, false⟩ = true := by
  decide +kernel

/-- Every rule may end the input. -/
theorem Rule.mayPrecede_end (r : Rule) : r.mayPrecede [[.oneOf [.endOfInput]]] = true := by
  cases r <;> decide +kernel

/-! ### Nodes that a call has built -/

/-- The end of the input may follow every rule. -/
theorem Rule.admits_end (r : Rule) {ts : List Token} {e : Token} (hts : Terminated ts)
    (hfollow : r.follow.holds ts = true) (he : e.terminal = .endOfInput) : r.context.Admits ts [e] :=
  Follow.admits_of_heads (.stop hts he) hfollow
    (Lookahead.holds_follow r.mayPrecede_end (by simp [TokenClass.accepts, he]))

/-- A call yields a node of its rule, or the only tree that the body has yielded. -/
theorem Rule.build_cases (r : Rule) (xs : List Tree) (p : Position) :
    r.build xs p = .ofRule r xs p ∨ xs = [r.build xs p] := by
  unfold Rule.build Tree.collapsed
  split
  · split
    · exact .inr rfl
    · exact .inl rfl
  · exact .inl rfl

namespace Reads

variable {n : Nat} {l : List Tree} {ts us : List Token}

theorem of_fresh {p : Pattern} {o : Reading} (h : Reads n p l ts o) (hp : p.fresh = true) (l' : List Tree) :
    Reads n p l' ts o := by
  induction p with
  | call r =>
    cases h with
    | call ha hz => exact .call ha hz
    | callNot ha => exact .callNot ha
  | ifNext ahead a b iha ihb =>
    simp only [Pattern.fresh, Bool.and_eq_true] at hp
    cases h with
    | nextYes hold ha => exact .nextYes hold (iha ha hp.1)
    | nextNo hold hb => exact .nextNo hold (ihb hb hp.2)
  | _ => cases hp

open Pattern in
/-- What a call reads is read by the rule on its own. -/
private theorem root_of_call {r : Rule} {t : Tree} (h : Reads n (Pattern.call r) [] ts (some ([t], us)))
    (ht : t.rule? = some r) : Reads n r.root [] ts (some ([t], us)) := by
  have hall : [t].all (·.is (.rule r)) = true := by simp [Tree.is_of_rule? ht]
  have hcall := h
  cases h with
  | call ha hz =>
    cases r with
    | notExpression =>
      cases ha with
      | seq ha hb =>
        cases ha with
        | take hacc => exact .nextYes (by rwa [Lookahead.holds_one]) hcall
    | unaryExpression =>
      cases ha with
      | seq ha hb =>
        cases ha with
        | take hacc => exact .nextYes (by rwa [Lookahead.holds_one]) hcall
    | numericLiteral =>
      cases ha with
      | take hacc => exact .only (.nextYes (by rwa [Lookahead.holds_one]) hcall) hall
    | characterLiteral =>
      cases ha with
      | @take _ _ _ _ x _ _ hacc =>
        have hx : x.terminal = .string := by simpa [TokenClass.accepts] using hacc
        refine .only (.nextNo (by simp [TokenClass.accepts, hx]) (.nextYes ?_ hcall)) hall
        rwa [Lookahead.holds_one]
    | booleanLiteral =>
      cases ha with
      | @take _ _ _ _ x _ _ hacc =>
        have hx : x.terminal = .keyword .TRUE ∨ x.terminal = .keyword .FALSE := by
          simpa [TokenClass.accepts] using hacc
        refine .only (.nextNo ?_ (.nextNo ?_ (.nextYes ?_ hcall))) hall
        · rcases hx with hx | hx <;> simp [TokenClass.accepts, hx]
        · rcases hx with hx | hx <;> simp [TokenClass.accepts, hx]
        · rwa [Lookahead.holds_one]
    | nullLiteral =>
      cases ha with
      | @take _ _ _ _ x _ _ hacc =>
        have hx : x.terminal = .keyword .NULL := by simpa [TokenClass.accepts] using hacc
        refine .only (.nextNo ?_ (.nextNo ?_ (.nextNo ?_ (.nextYes ?_ hcall)))) hall
        · simp [TokenClass.accepts, hx]
        · simp [TokenClass.accepts, hx]
        · simp [TokenClass.accepts, hx]
        · rwa [Lookahead.holds_one]
    | comparisonExpression | isNullExpression | likeExpression | betweenExpression | inExpression
    | memberExpression | methodCall | attributeExpression => cases ha
    | _ => exact hcall

/-- A node that a call has built is read again where the stream is cut off behind it. -/
theorem regained_of_call {d : Nat} {r : Rule} {xs : List Tree} (h : Reads n r.body [] ts (some (xs, us)))
    (hr : r ≠ .fileInput) (hfollow : r.follow.holds us = true) (hts : Terminated ts) (hn : n + 1 ≤ d)
    (hrule : (r.build xs (placeOf us)).rule? = some r) : (r.build xs (placeOf us)).Regained d := by
  obtain ⟨w, hw, hleaves⟩ := h.consumes rfl (r.lossless_body hr) hts
  have hwidth : 0 < r.body.width := Nat.lt_of_lt_of_le (Rule.width_pos hr) r.width_body
  have hne : xs ≠ [] := h.ne_nil (Rule.passes_body hr) hwidth (r.lossless_body hr) hts
  intro s hs
  obtain rfl : r = s := Option.some.inj (hrule.symm.trans hs)
  have htokens : (r.build xs (placeOf us)).tokens = w := by simpa using hleaves
  rw [htokens]
  refine ⟨hw.inner, fun e he => ?_⟩
  have hcut := h.truncate rfl (Rule.firm_body hr) (Rule.passes_body hr) hw.split
    (r.admits_end (hw.terminated hts) hfollow he)
  have hcall : Reads (n + 1) (Pattern.call r) [] (w ++ [e]) (some ([r.build xs (placeOf us)], [e])) :=
    .call hcut (by rw [Rule.build_congr hne])
  exact (hcall.root_of_call hrule).mono hn

end Reads

/-! ### Nodes that are built around an operand -/

private theorem Pattern.root_of_isRootOf {p : Pattern} {r : Rule} (h : p.isRootOf r = true) :
    ∃ e, r.root = .only r e p := by
  unfold isRootOf at h
  split at h
  · rename_i s e q hroot
    simp only [Bool.and_eq_true, beq_iff_eq] at h
    obtain ⟨rfl, rfl⟩ := h
    exact ⟨e, hroot⟩
  · cases h

/-- A node at the top of a pattern that reads its rule. -/
private theorem Tree.regained_of_root {d n : Nat} {p : Pattern} {t : Tree} {r : Rule} (hp : p.isRootOf r = true)
    (hrule : t.rule? = some r) (hend : ∀ x ∈ t.tokens, x.terminal ≠ .endOfInput)
    (h : ∀ e : Token, e.terminal = .endOfInput → Reads n p [] (t.tokens ++ [e]) (some ([t], [e]))) (hn : n ≤ d) :
    t.Regained d := by
  intro s hs
  obtain rfl : r = s := Option.some.inj (hrule.symm.trans hs)
  refine ⟨hend, fun e he => ?_⟩
  obtain ⟨expected, hroot⟩ := Pattern.root_of_isRootOf hp
  rw [hroot]
  exact (Reads.only (h e he) (by simp [is_of_rule? hrule])).mono hn

/-- A node that a tail has built around an operand, where operand and tail together read the rule of the node. -/
private theorem Reads.regained_of_onto {d n : Nat} {a b : Pattern} {l : List Tree} {ts us : List Token} {xs : List Tree}
    {r : Rule} (h : Reads n (Pattern.onto a b) l ts (some (xs, us))) (hfresh : a.fresh = true)
    (hsingle : (Pattern.onto a b).single false = true) (hlossless : (Pattern.onto a b).lossless false = true)
    (hroot : (Pattern.onto a b).isRootOf r = true) (hf : (Pattern.onto a b).firm r.context = true)
    (hp : (Pattern.onto a b).passes = true) (hfollow : r.follow.holds us = true) (hts : Terminated ts) (hn : n ≤ d)
    {t : Tree} (ht : t ∈ xs) (hrule : t.rule? = some r) : t.Regained d := by
  obtain ⟨u, rfl⟩ := h.one_tree rfl hsingle (by simp)
  obtain rfl := List.mem_singleton.1 ht
  obtain ⟨w, hw, hleaves⟩ := h.consumes rfl hlossless hts
  have htokens : t.tokens = w := by simpa using hleaves
  have hread : Reads n (Pattern.onto a b) [] ts (some ([t], us)) := by
    cases h with
    | onto ha hb => exact .onto (ha.of_fresh hfresh []) hb
  refine Tree.regained_of_root hroot hrule (htokens ▸ hw.inner) (fun e he => ?_) hn
  rw [htokens]
  exact hread.truncate rfl hf hp hw.split (r.admits_end (hw.terminated hts) hfollow he)

/-- No lookahead holds at the end of the input. -/
theorem Lookahead.holds_end {ahead : Lookahead} (hk : ahead.all (·.all (·.passable)) = true)
    (hne : ahead.all (!·.isEmpty) = true) {e : Token} (he : e.terminal = .endOfInput) : ahead.holds [e] = false := by
  simp only [List.all_eq_true] at hk hne
  rw [← Bool.not_eq_true, holds_iff]
  rintro ⟨ks, hks, hf⟩
  cases ks with
  | nil => cases hne _ hks
  | cons k ks => exact TokenClass.ne_endOfInput (hk _ hks k List.mem_cons_self) hf.head he

/-- What is read from a place on, onto a tree, is read by the whole chain from the start of the tree on, also where the
stream is cut off behind the place. -/
def Extends (n : Nat) (a : Pattern) (ahead : Lookahead) (link : Pattern) (count : Nat) (t : Tree) (ts : List Token) :
    Prop :=
  (∀ x ∈ t.tokens, x.terminal ≠ .endOfInput) ∧ ∀ ts' o, CutOff ts ts' → Reads n (.links ahead link count) [t] ts' o →
    Reads n (Pattern.chain a ahead link) [] (t.tokens ++ ts') o

namespace Extends

variable {n count : Nat} {a link : Pattern} {ahead : Lookahead} {t : Tree} {ts us : List Token}

private theorem start {l : List Tree} (h : Reads n a l ts (some ([t], us))) (hts : Terminated ts)
    (hfresh : a.fresh = true) (hl : a.lossless false = true) (hf : a.firm .unknown = true) (hp : a.passes = true) :
    Extends n a ahead link 1 t us := by
  obtain ⟨w, hw, hleaves⟩ := h.consumes rfl hl hts
  have htokens : t.tokens = w := by simpa using hleaves
  rw [Extends, htokens]
  refine ⟨hw.inner, fun ts' o hcut hread => ?_⟩
  exact .chain ((h.truncate rfl hf hp hw.split (Follow.admits_unknown hcut)).of_fresh hfresh []) hread

private theorem step {u : Tree} (h : Extends n a ahead link count t ts) (hold : ahead.holds ts = true) (hc : count ≤ n)
    (hlink : Reads n link [t] ts (some ([u], us))) (hts : Terminated ts) (hl : link.lossless true = true)
    (hf : (Task.links ahead link count).firm .unknown = true) (hp : link.passes = true) :
    Extends n a ahead link (count + 1) u us := by
  simp only [Task.firm, Bool.and_eq_true, List.all_eq_true, decide_eq_true_eq] at hf
  obtain ⟨w, hw, hleaves⟩ := hlink.consumes rfl hl hts
  have htokens : u.tokens = t.tokens ++ w := by simpa using hleaves
  obtain ⟨v, hv, hwidth⟩ := hlink.wide hp hts
  rw [hv.eq_of_append hw.split] at hwidth
  rw [Extends, htokens]
  refine ⟨fun x hx => ?_, fun ts' o hcut hread => ?_⟩
  · rcases List.mem_append.1 hx with hx | hx
    · exact h.1 x hx
    · exact hw.inner x hx
  · have hne := (hcut.append w).terminated.2.ne_nil
    have hold' : ahead.holds (w ++ ts') = true :=
      Lookahead.holds_congr (hw.split ▸ hold) (fun ks hks => Nat.le_trans (hf.2 ks hks) hwidth) hne
    have hlink' := hlink.truncate rfl hf.1.1.1 hp hw.split (Follow.admits_unknown hcut)
    have hmore : Reads n (.links ahead link count) [t] (w ++ ts') o :=
      .linksMore hold' hc hlink' (by simp only [List.length_append]; omega) hread
    rw [List.append_assoc]
    exact h.2 _ o (hw.split ▸ hcut.append w) hmore

private theorem regained {d : Nat} {r : Rule} (h : Extends n a ahead link count t ts) (hts : Terminated ts)
    (hf : (Task.links ahead link count).firm .unknown = true) (hne : ahead.all (!·.isEmpty) = true)
    (hroot : (Pattern.chain a ahead link).isRootOf r = true) (hrule : t.rule? = some r) (hn : n ≤ d) :
    t.Regained d := by
  simp only [Task.firm, Bool.and_eq_true] at hf
  refine Tree.regained_of_root hroot hrule h.1 (fun e he => ?_) hn
  exact h.2 _ _ (.stop hts he) (.linksStop (Lookahead.holds_end hf.1.2 hne he))

end Extends

/-! ### All nodes -/

/-- What has to be known about a task so that all nodes below what it yields are read again. -/
def Task.Ready (n : Nat) (l : List Tree) (ts us : List Token) : Task → Prop
  | .pattern p => ∃ behind, p.grounded behind = true ∧ behind.holds us = true
  | .links ahead link count =>
    ∃ a t, l = [t] ∧ GroundedChain a ahead link ∧ Extends n a ahead link count t ts

/-- The tree is read again, unless it is a node that the task builds around what is in front; all below is. -/
def Task.Restores (d : Nat) (t : Tree) : Task → Prop
  | .pattern p => t.RegainedBelow d ∧ (t.Regained d ∨ ∃ r ∈ p.tops, t.rule? = some r)
  | .links _ _ _ => t.AllRegained d

namespace Task.Restores

variable {d : Nat} {t : Tree} {p q : Pattern}

private theorem of_all (h : t.AllRegained d) : (Task.pattern p).Restores d t :=
  ⟨(Tree.allRegained_iff.1 h).2, .inl (Tree.allRegained_iff.1 h).1⟩

theorem all (h : (Task.pattern p).Restores d t) (hp : p.tops = []) : t.AllRegained d := by
  refine Tree.allRegained_iff.2 ⟨?_, h.1⟩
  rcases h.2 with hreg | ⟨r, hr, _⟩
  · exact hreg
  · rw [hp] at hr
    cases hr

theorem mono (h : (Task.pattern p).Restores d t) (hpq : p.tops ⊆ q.tops) : (Task.pattern q).Restores d t :=
  ⟨h.1, h.2.imp_right fun ⟨r, hr, hrule⟩ => ⟨r, hpq hr, hrule⟩⟩

end Task.Restores

/-- Whatever a task yields is read again with all that is below it, but for a node that is still to be completed. -/
theorem Reads.restores {d n : Nat} {task : Task} {l : List Tree} {ts : List Token} {o : Reading}
    (h : Reads n task l ts o) {xs : List Tree} {us : List Token} (ho : o = some (xs, us)) (hn : n ≤ d)
    (hready : task.Ready n l ts us) (hp : task.passes = true) (hts : Terminated ts)
    (hl : ∀ t ∈ l, t.AllRegained d) : ∀ t ∈ xs, task.Restores d t := by
  induction h generalizing xs us with
  | empty => cases ho; simp
  | take hacc hu =>
    cases ho
    intro t ht
    rw [List.mem_singleton.1 ht]
    exact .of_all (Tree.allRegained_leaf _)
  | advance hu => cases hp
  | room hw => cases ho; simp
  | @seq n a b l ts ys vs zs us xs ha hb hz iha ihb =>
    cases ho
    simp only [Task.passes, Pattern.passes, Bool.and_eq_true] at hp
    obtain ⟨behind, hg, hus⟩ := hready
    simp only [Pattern.grounded, Bool.and_eq_true] at hg
    obtain ⟨w, hw, _⟩ := ha.wide hp.1 hts
    have hvs := hw.terminated hts
    have hys := iha rfl hn ⟨_, hg.1, hb.leads rfl hp.2 hvs hus⟩ hp.1 hts hl
    have hzs := ihb rfl hn ⟨_, hg.2, hus⟩ hp.2 hvs hl
    intro t ht
    rw [hz] at ht
    rcases List.mem_append.1 ht with ht | ht
    · exact (hys t ht).mono (List.subset_append_left _ _)
    · exact (hzs t ht).mono (List.subset_append_right _ _)
  | orFirst ha iha =>
    simp only [Task.passes, Pattern.passes, Bool.and_eq_true] at hp
    obtain ⟨behind, hg, hus⟩ := hready
    simp only [Pattern.grounded, Bool.and_eq_true] at hg
    intro t ht
    exact (iha ho hn ⟨_, hg.1, hus⟩ hp.1 hts hl t ht).mono (List.subset_append_left _ _)
  | orSecond ha hb iha ihb =>
    simp only [Task.passes, Pattern.passes, Bool.and_eq_true] at hp
    obtain ⟨behind, hg, hus⟩ := hready
    simp only [Pattern.grounded, Bool.and_eq_true] at hg
    intro t ht
    exact (ihb ho hn ⟨_, hg.2, hus⟩ hp.2 hts hl t ht).mono (List.subset_append_right _ _)
  | manyStop ha iha => cases ho; simp
  | @manyMore n a l ts ys vs zs us xs ha hlt hm hz iha ihm =>
    cases ho
    obtain ⟨w, hw, _⟩ := ha.wide hp hts
    have hvs := hw.terminated hts
    have hready' := hready
    obtain ⟨behind, hg, hus⟩ := hready'
    have hys := iha rfl hn ⟨_, hg, hm.leads rfl hp hvs hus⟩ hp hts hl
    have hzs := ihm rfl hn hready hp hvs hl
    intro t ht
    rw [hz] at ht
    rcases List.mem_append.1 ht with ht | ht
    · exact hys t ht
    · exact hzs t ht
  | manyOnce ha hle iha =>
    obtain ⟨behind, hg, hus⟩ := hready
    exact iha ho hn ⟨_, hg, Lookahead.holds_right hus⟩ hp hts hl
  | nextYes hold ha iha =>
    simp only [Task.passes, Pattern.passes, Bool.and_eq_true] at hp
    obtain ⟨behind, hg, hus⟩ := hready
    simp only [Pattern.grounded, Bool.and_eq_true] at hg
    intro t ht
    exact (iha ho hn ⟨_, hg.1, hus⟩ hp.1 hts hl t ht).mono (List.subset_append_left _ _)
  | nextNo hold hb ihb =>
    simp only [Task.passes, Pattern.passes, Bool.and_eq_true] at hp
    obtain ⟨behind, hg, hus⟩ := hready
    simp only [Pattern.grounded, Bool.and_eq_true] at hg
    intro t ht
    exact (ihb ho hn ⟨_, hg.2, hus⟩ hp.2 hts hl t ht).mono (List.subset_append_right _ _)
  | within ha iha => exact iha ho (Nat.le_of_succ_le hn) hready hp hts hl
  | @node n r a l ts ys vs zs ha hz iha =>
    cases ho
    obtain ⟨behind, hg, hus⟩ := hready
    simp only [Pattern.grounded, Bool.and_eq_true, List.isEmpty_iff] at hg
    have hys := iha rfl hn ⟨_, hg.1, hus⟩ hp hts hl
    intro t ht
    rw [hz, List.mem_singleton] at ht
    subst ht
    exact ⟨Tree.regainedBelow_ofRule (fun y hy => (hys y hy).all hg.2) _, .inr ⟨r, List.mem_cons_self, rfl⟩⟩
  | @call n r l ts ys vs zs ha hz iha =>
    cases ho
    obtain ⟨behind, hg, hus⟩ := hready
    have hr : r ≠ .fileInput := by simpa [Task.passes, Pattern.passes] using hp
    have hfollow := Lookahead.holds_follow hg hus
    have hys := iha rfl (Nat.le_of_succ_le hn) ⟨_, Rule.grounded_body hr, hfollow⟩ (Rule.passes_body hr) hts (by simp)
    intro t ht
    rw [hz, List.mem_singleton] at ht
    refine .of_all ?_
    rcases r.build_cases ys (placeOf vs) with hnode | hone
    · have hreg := ha.regained_of_call hr hfollow hts hn (by rw [hnode]; rfl)
      rw [ht, Tree.allRegained_iff]
      refine ⟨hreg, ?_⟩
      rw [hnode]
      exact Tree.regainedBelow_ofRule (fun y hy => (hys y hy).all r.tops_body) _
    · exact (hys t (by rw [hone, ht]; exact List.mem_cons_self)).all r.tops_body
  | only ha hall iha => exact iha ho hn hready hp hts hl
  | @onto n a b l ts ys vs o ha hb iha ihb =>
    have hp' := hp
    simp only [Task.passes, Pattern.passes, Bool.and_eq_true] at hp
    obtain ⟨behind, hg, hus⟩ := hready
    simp only [Pattern.grounded, Bool.and_eq_true, List.isEmpty_iff, List.all_eq_true] at hg
    cases ho
    obtain ⟨w, hw, _⟩ := ha.wide hp.1 hts
    have hvs := hw.terminated hts
    have hys := iha rfl hn ⟨_, hg.1.1.1, hb.leads rfl hp.2 hvs hus⟩ hp.1 hts hl
    have hxs := ihb rfl hn ⟨_, hg.1.1.2, hus⟩ hp.2 hvs (fun y hy => (hys y hy).all hg.1.2)
    intro t ht
    obtain ⟨hbelow, hreg | ⟨r, hr, hrule⟩⟩ := hxs t ht
    · exact ⟨hbelow, .inl hreg⟩
    -- The tail has built the node, and operand and tail together are the root of its rule.
    · obtain ⟨⟨⟨⟨⟨hfresh, hsingle⟩, hlossless⟩, hroot⟩, hfirm⟩, hmay⟩ := hg.2 r hr
      exact ⟨hbelow, .inl ((Reads.onto ha hb).regained_of_onto hfresh hsingle hlossless hroot hfirm hp'
        (Lookahead.holds_follow hmay hus) hts hn ht hrule)⟩
  | left =>
    cases ho
    exact fun t ht => .of_all (hl t ht)
  | @chain n a ahead link l ts ys vs o ha hlinks iha ihl =>
    simp only [Task.passes, Pattern.passes, Bool.and_eq_true] at hp
    obtain ⟨behind, hg, hus⟩ := hready
    have hc := GroundedChain.of_grounded hg
    obtain ⟨u, rfl⟩ := ha.one_tree rfl hc.single (by simp)
    obtain ⟨w, hw, _⟩ := ha.wide hp.1 hts
    have hvs := hw.terminated hts
    have hys := iha rfl hn ⟨_, hc.operand, Lookahead.holds_nil hvs.ne_nil⟩ hp.1 hts hl
    have hext : Extends n a ahead link 1 u vs := .start ha hts hc.fresh hc.lossless hc.firm hp.1
    intro t ht
    exact .of_all (ihl ho hn ⟨a, u, rfl, hc, hext⟩ hp.2 hvs (fun y hy => (hys y hy).all hc.tops) t ht)
  | label hn hl hs hu =>
    cases ho
    intro t ht
    rw [List.mem_singleton.1 ht]
    exact .of_all (Tree.allRegained_leaf _)
  | labelAbsent hn => cases ho; simp
  | linksStop hold => cases ho; exact hl
  | @linksMore n ahead link count l ts ys vs o hold hcount ha hlt hm iha ihm =>
    obtain ⟨a, t, rfl, hc, hext⟩ := hready
    obtain ⟨u, rfl⟩ := ha.one_tree rfl hc.linkSingle (fun _ => ⟨t, rfl⟩)
    obtain ⟨w, hw, _⟩ := ha.wide hp hts
    have hvs := hw.terminated hts
    have hext' := hext.step hold hcount ha hts hc.linkLossless (hc.linksFirm count) hp
    have hlink := iha rfl hn ⟨_, hc.linkGrounded, Lookahead.holds_nil hvs.ne_nil⟩ hp hts hl
    -- The node that the link has built is read by the chain up to this link.
    have hu : u.AllRegained d := by
      obtain ⟨hbelow, hreg | ⟨r, hr, hrule⟩⟩ := hlink u List.mem_cons_self
      · exact Tree.allRegained_iff.2 ⟨hreg, hbelow⟩
      · exact Tree.allRegained_iff.2 ⟨hext'.regained hvs (hc.linksFirm _) hc.asks (hc.isRoot r hr) hrule hn, hbelow⟩
    exact ihm ho hn ⟨a, u, rfl, hc, hext'⟩ hp hvs (by simpa using hu)
  | linksOnce hold hcount ha hle iha =>
    obtain ⟨a, t, rfl, hc, hext⟩ := hready
    have hfirm := hc.linksFirm 0
    simp only [Task.firm, Bool.and_eq_true, decide_eq_true_eq] at hfirm
    obtain ⟨w, hw, hwidth⟩ := ha.wide hp hts
    rw [hw.split, List.length_append] at hle
    omega
  | last | collapse => obtain ⟨_, hg, _⟩ := hready; cases hg
  | _ => cases ho

/-! ### Units and whole parses -/

/-- A list that ends with the end of the input is a stream as it is. -/
theorem Parser.tokens_ofTokens_concat {e : Token} (he : e.terminal = .endOfInput) (w : List Token) (limits : Limits) :
    (Parser.ofTokens (w ++ [e]) limits).tokens = w ++ [e] := by
  cases w with
  | nil =>
    show e :: ([] ++ Cursor.closing e) = [e]
    rw [Cursor.closing, if_pos he]
    rfl
  | cons t w =>
    show t :: (w ++ [e] ++ Cursor.closing ((w ++ [e]).getLastD t)) = t :: w ++ [e]
    have hlast : (w ++ [e]).getLastD t = e := by simp
    rw [hlast, Cursor.closing, if_pos he, List.append_nil, List.cons_append]

namespace Reads

variable {d : Nat} {ts us : List Token} {t : Tree}

open Pattern in
/-- A unit is read again from its tokens, of which the last is the end of the input, and so is all below. -/
theorem regained_unit (h : Reads d Rule.fileInput.root [] ts (some ([t], us))) (hts : Terminated ts) :
    t.RegainedBelow d ∧ t.rule? = some .fileInput ∧ ∃ w e, e.terminal = .endOfInput ∧ t.tokens = w ++ [e] ∧
      Reads d Rule.fileInput.root [] (w ++ [e]) (some ([t], [e])) := by
  cases h with
  | @call n _ _ _ xs _ _ ha hz =>
    cases ha with
    | @seq _ _ _ _ _ ys vs _ _ _ hitems hend hxs =>
      obtain ⟨w, hw, hleaves⟩ := hitems.consumes (b := false) rfl (by rfl) hts
      have hvs := hw.terminated hts
      cases hend with
      | @take _ _ _ _ e rest _ hacc hu =>
        have he : e.terminal = .endOfInput := by simpa [TokenClass.accepts] using hacc
        obtain rfl : t = .ofRule .fileInput (ys ++ [.leaf e]) (placeOf us) := by
          rw [← hxs]
          exact List.singleton_inj.1 hz
        -- The statements and slashes are followed by the end of the input, in the whole stream and in the shorter one.
        have hK : (Follow.mk [[.oneOf [.endOfInput]]] true false).Admits (e :: rest) [e] :=
          Follow.admits_of_heads (.stop hvs he) (by rwa [Lookahead.holds_one]) (by rwa [Lookahead.holds_one])
        have hall : ∀ y ∈ ys, y.AllRegained (n + 1) := by
          intro y hy
          have hready : Task.Ready n [] ts (e :: rest) Pattern.unitItems := ⟨_, Pattern.grounded_unitItems, hK.whole⟩
          exact (hitems.restores rfl (Nat.le_succ n) hready (by rfl) hts (by simp) y hy).all rfl
        refine ⟨Tree.regainedBelow_ofRule ?_ _, rfl, w, e, he, ?_, ?_⟩
        · intro y hy
          rcases List.mem_append.1 hy with hy | hy
          · exact hall y hy
          · rw [List.mem_singleton.1 hy]
            exact Tree.allRegained_leaf e
        · simpa using hleaves
        · have hitems' := hitems.truncate rfl Pattern.firm_unitItems (by rfl) hw.split hK
          refine .call (.seq hitems' (.take hacc rfl) rfl) ?_
          exact congrArg ([·]) (Tree.ofRule_congr (by simp) _ _ _)

end Reads

/-- A tree that is read again is the result of a parse of its tokens with its rule. -/
theorem Tree.parseRule_of_regained {limits : Limits} {t : Tree} {r : Rule} (h : t.Regained limits.maxDepth)
    (hr : t.rule? = some r) (hstack : limits.Ample) :
    ((Parser.ofTokens t.tokens limits).parseRule r).1 = .ok t := by
  obtain ⟨hend, hread⟩ := h r hr
  obtain ⟨e, he, htokens⟩ := Parser.tokens_ofTokens hend limits
  exact Parser.parseRule_of_reads hstack (htokens ▸ hread e he) he

/-- Every inner node of a parsed tree is what its tokens, on their own, are parsed to with the rule of the node. -/
theorem parseRule_subtree (tokens : List Token) (limits : Limits) (hstack : limits.Ample) (root : Rule)
    (tree : Tree) (h : ((Parser.ofTokens tokens limits).parseRule root).1 = .ok tree) :
    ∀ node ∈ tree.descendants, ∀ rule, node.rule? = some rule →
      ((Parser.ofTokens node.tokens limits).parseRule rule).1 = .ok node := by
  obtain ⟨more, e, behind, hread, he⟩ := Parser.reads_of_parseRule h
  obtain ⟨t, ht⟩ := hread.root_tree
  obtain ⟨rfl, rfl⟩ := List.cons.inj ht
  have hts : Terminated (Parser.ofTokens tokens limits).tokens := terminated_ofTokens tokens
  intro node hnode rule hrule
  by_cases hr : root = .fileInput
  · subst hr
    obtain ⟨hbelow, hunit, w, e', he', htokens, hagain⟩ := hread.regained_unit hts
    rw [Tree.descendants, Tree.listing, List.append_nil] at hnode
    rcases List.mem_cons.1 hnode with rfl | hnode
    · obtain rfl : rule = .fileInput := Option.some.inj (hrule.symm.trans hunit)
      have hstream := Parser.tokens_ofTokens_concat he' w limits
      rw [htokens]
      exact Parser.parseRule_of_reads hstack (hstream.symm ▸ hagain) he'
    · exact Tree.parseRule_of_regained (hbelow node hnode) hrule hstack
  · have hend : Lookahead.holds [[.oneOf [.endOfInput]]] (e :: behind) = true := by
      simp [TokenClass.accepts, he]
    have hall := hread.restores rfl (Nat.le_refl _) ⟨_, Rule.grounded_root hr, hend⟩ (Rule.passes_root hr) hts
      (by simp) tree List.mem_cons_self
    exact Tree.parseRule_of_regained (hall.all root.tops_root node hnode) hrule hstack

/-- `a.b();` is a call statement.  The member `a.b`, which the call is built around, is parsed on its own. -/
theorem parseRule_subtree_member :
    (Limits.forDepth 4).Ample ∧
    ((Parser.ofTokens [.bare .identifier "a", .bare .dot ".", .bare .identifier "b", .bare .leftParen "(",
        .bare .rightParen ")", .bare .semicolon ";"] (.forDepth 4)).parseRule .callStatement).1 =
      .ok (.ofRule .callStatement
        [.ofRule .methodCall
          [.ofRule .memberExpression
            [.ofRule .variableName [.leaf (.bare .identifier "a")] default, .leaf (.bare .dot "."),
             .leaf (.bare .identifier "b")] default,
           .ofRule .arguments [.leaf (.bare .leftParen "("), .leaf (.bare .rightParen ")")] default] default,
         .leaf (.bare .semicolon ";")] default) ∧
    ((Parser.ofTokens [.bare .identifier "a", .bare .dot ".", .bare .identifier "b"] (.forDepth 4)).parseRule
        .memberExpression).1 =
      .ok (.ofRule .memberExpression
        [.ofRule .variableName [.leaf (.bare .identifier "a")] default, .leaf (.bare .dot "."),
         .leaf (.bare .identifier "b")] default) := by
  have hparse : ((Parser.ofTokens [.bare .identifier "a", .bare .dot ".", .bare .identifier "b",
      .bare .leftParen "(", .bare .rightParen ")", .bare .semicolon ";"] (.forDepth 4)).parseRule .callStatement).1 =
      .ok (.ofRule .callStatement
        [.ofRule .methodCall
          [.ofRule .memberExpression
            [.ofRule .variableName [.leaf (.bare .identifier "a")] default, .leaf (.bare .dot "."),
             .leaf (.bare .identifier "b")] default,
           .ofRule .arguments [.leaf (.bare .leftParen "("), .leaf (.bare .rightParen ")")] default] default,
         .leaf (.bare .semicolon ";")] default) := by cbv
  refine ⟨Limits.ample_forDepth 4, hparse, ?_⟩
  have hmember := parseRule_subtree _ (.forDepth 4) (Limits.ample_forDepth 4) _ _ hparse
    (.ofRule .memberExpression
      [.ofRule .variableName [.leaf (.bare .identifier "a")] default, .leaf (.bare .dot "."),
       .leaf (.bare .identifier "b")] default) ?_ .memberExpression rfl
  · simpa using hmember
  · refine Tree.mem_descendants_ofRule List.mem_cons_self (Tree.mem_descendants_ofRule List.mem_cons_self ?_)
    rw [Tree.ofRule, Tree.descendants_node]
    exact List.mem_cons_self

end PlsqlLint
