import PlsqlLint.Proofs.Lossless

/-!
# How deep the leaves of a parsed tree lie

The bound on nesting counts the rules that are being matched.  A leaf can lie under more nodes than that: a comparison
is built around a left operand that was matched before, and the members, attributes and calls of a reference are built
onto each other without a rule being entered.

A *branch* lists the nodes above a leaf, each with the way in which it stands over the next one (`Step`).  What a branch
asks of the bound is its `demand`: one level for every node whose rule was entered, and the length of every run of links
on top of the rules above it.  No branch of a parsed tree asks for more than the bound, and so a bound `d` leaves room
for `d * (d + 3) / 2` nodes on a branch (`parseRule_branches`).

`Pattern.Gives` says what holds of the trees that a pattern yields; there is one rule for each way to build a pattern.
Comparisons and references are the two patterns that need an argument of their own.
-/

namespace PlsqlLint

/-! ### Branches -/

/-- How a node stands over one of its children. -/
inductive Step where
  /-- The child was matched inside the rule of the node. -/
  | rule
  /-- The child is the left operand of a comparison. -/
  | left
  /-- The node is a member, an attribute or a call, built onto a reference. -/
  | link
deriving DecidableEq, Repr

/-- How a node of the rule stands over its child with the index. -/
def Rule.step : Rule → Nat → Step
  | .memberExpression, _ | .attributeExpression, _ | .methodCall, _ => .link
  | .comparisonExpression, 0 | .isNullExpression, 0 | .likeExpression, 0 | .betweenExpression, 0 | .inExpression, 0 =>
    .left
  | _, _ => .rule

namespace Tree

mutual

/-- The branches of the tree, from the root to each leaf. -/
def branches : Tree → List (List Step)
  | .leaf _ => [[]]
  | .node r _ children => branchesFrom r 0 children

/-- The branches through the children of a node of the rule, of which the first has the index `i`. -/
def branchesFrom (r : Rule) (i : Nat) : List Tree → List (List Step)
  | [] => []
  | t :: ts => t.branches.map (r.step i :: ·) ++ branchesFrom r (i + 1) ts

end

private theorem mem_branchesFrom {r : Rule} {i : Nat} {ts : List Tree} {b : List Step} :
    b ∈ branchesFrom r i ts ↔ ∃ j t, ts[j]? = some t ∧ ∃ c ∈ t.branches, b = r.step (i + j) :: c := by
  induction ts generalizing i with
  | nil => simp [branchesFrom]
  | cons t ts ih =>
    simp only [branchesFrom, List.mem_append, List.mem_map, ih]
    constructor
    · rintro (⟨c, hc, rfl⟩ | ⟨j, u, hu, c, hc, rfl⟩)
      · exact ⟨0, t, rfl, c, hc, rfl⟩
      · exact ⟨j + 1, u, hu, c, hc, by rw [Nat.add_right_comm, Nat.add_assoc]⟩
    · rintro ⟨_ | j, u, hu, c, hc, rfl⟩
      · obtain rfl : t = u := Option.some.inj hu
        exact .inl ⟨c, hc, rfl⟩
      · exact .inr ⟨j, u, hu, c, hc, by rw [Nat.add_right_comm, Nat.add_assoc]⟩

private theorem mem_branches_ofRule {r : Rule} {ts : List Tree} {p : Position} {b : List Step} :
    b ∈ (ofRule r ts p).branches ↔ ∃ i t, ts[i]? = some t ∧ ∃ c ∈ t.branches, b = r.step i :: c := by
  simp [ofRule, branches, mem_branchesFrom]

/-- There is one branch for each leaf. -/
theorem length_branches (t : Tree) : t.branches.length = t.tokens.length := by
  have hfrom : ∀ (r : Rule) (i : Nat) (ts : List Tree), (∀ t ∈ ts, t.branches.length = t.tokens.length) →
      (branchesFrom r i ts).length = (leaves ts).length := by
    intro r i ts
    induction ts generalizing i with
    | nil => simp [branchesFrom]
    | cons t ts ih =>
      intro h
      rw [List.forall_mem_cons] at h
      simp [branchesFrom, h.1, ih _ h.2]
  induction t with
  | leaf token => simp [branches]
  | node r s children ih => simp [branches, hfrom r 0 children ih]

end Tree

/-! ### The demand of a branch -/

namespace Step

/-- The number of links at the top of the branch. -/
def links : List Step → Nat
  | .link :: b => links b + 1
  | _ => 0

/-- The levels that a branch asks for. -/
def demand : List Step → Nat
  | [] => 0
  | .rule :: b => demand b + 1
  | .left :: b => demand b
  | .link :: b => max (demand b) (links b + 1)

private theorem links_le_demand (b : List Step) : links b ≤ demand b := by
  cases b with
  | nil => simp [links]
  | cons s b => cases s <;> simp [links, demand]

private theorem demand_cons_le (s : Step) (b : List Step) : demand (s :: b) ≤ demand b + 1 := by
  have := links_le_demand b
  cases s <;> simp only [demand] <;> omega

private theorem length_le_links {run : List Step} (hrun : ∀ s ∈ run, s = .link) (below : List Step) :
    run.length ≤ links (run ++ below) := by
  induction run with
  | nil => exact Nat.zero_le _
  | cons s run ih =>
    obtain ⟨rfl, hmore⟩ := List.forall_mem_cons.1 hrun
    simpa [links] using ih hmore

/-- A run of links asks for as many levels as it has links, below the rules that are entered above it. -/
private theorem count_add_length_le_demand (above : List Step) {run : List Step} (hrun : ∀ s ∈ run, s = .link)
    (below : List Step) : above.count .rule + run.length ≤ demand (above ++ run ++ below) := by
  induction above with
  | nil =>
    have := length_le_links hrun below
    have := links_le_demand (run ++ below)
    simp only [List.count_nil, List.nil_append]
    omega
  | cons s above ih =>
    cases s <;> simp only [List.cons_append, List.append_assoc, demand, List.count_cons] at ih ⊢ <;> simp <;> omega

end Step

/-! ### Bounds on the branches of a tree -/

namespace Tree

/-- No branch asks for more than `d` levels, and twice its length is at most `k`. -/
def Bounded (d k : Nat) (t : Tree) : Prop := ∀ b ∈ t.branches, Step.demand b ≤ d ∧ 2 * b.length ≤ k

/-- The tree fits into `n` levels. -/
def Fits (n : Nat) (t : Tree) : Prop := t.Bounded n (n * (n + 3))

/-- A reference with `c` links in a row at its top, matched with `m + 1` levels. -/
def Linked (m c : Nat) (t : Tree) : Prop :=
  t.Bounded (m + 1) (m * (m + 3) + 2 * (c + 1)) ∧ ∀ b ∈ t.branches, Step.links b ≤ c

theorem Bounded.mono {d d' k k' : Nat} {t : Tree} (h : t.Bounded d k) (hd : d ≤ d') (hk : k ≤ k') :
    t.Bounded d' k' := by
  intro b hb
  obtain ⟨h1, h2⟩ := h b hb
  exact ⟨by omega, by omega⟩

@[simp] theorem bounded_leaf (d k : Nat) (t : Token) : (leaf t).Bounded d k := by
  simp [Bounded, branches, Step.demand]

private theorem room_succ (m : Nat) : (m + 1) * (m + 1 + 3) = m * (m + 3) + 2 * (m + 2) := by ring

/-- With one level more there is room for a node, for one around it, and for a link in each of the levels. -/
private theorem Bounded.fits {m c : Nat} {t : Tree} (h : t.Bounded (m + 1) (m * (m + 3) + 2 * (c + 1)))
    (hc : c ≤ m + 1) :
    t.Fits (m + 1) := by
  refine Bounded.mono h le_rfl ?_
  rw [room_succ]
  omega

/-- A node asks for at most one level more than its children. -/
private theorem bounded_ofRule {d k : Nat} {r : Rule} {ts : List Tree} {p : Position} (h : ∀ t ∈ ts, t.Bounded d k) :
    (ofRule r ts p).Bounded (d + 1) (k + 2) := by
  intro b hb
  obtain ⟨i, t, ht, c, hc, rfl⟩ := mem_branches_ofRule.1 hb
  obtain ⟨h1, h2⟩ := h t (List.mem_of_getElem? ht) c hc
  have := Step.demand_cons_le (r.step i) c
  rw [List.length_cons]
  exact ⟨by omega, by omega⟩

/-- A comparison asks for no level more than its left operand. -/
private theorem bounded_comparison {d k : Nat} {r : Rule} {t : Tree} {ts : List Tree} {p : Position}
    (h0 : r.step 0 = .left) (ht : t.Bounded (d + 1) k) (hts : ∀ u ∈ ts, u.Bounded d k) :
    (ofRule r (t :: ts) p).Bounded (d + 1) (k + 2) := by
  intro b hb
  obtain ⟨i, u, hu, c, hc, rfl⟩ := mem_branches_ofRule.1 hb
  rw [List.length_cons]
  cases i with
  | zero =>
    obtain rfl : t = u := Option.some.inj hu
    obtain ⟨h1, h2⟩ := ht c hc
    rw [h0, Step.demand]
    exact ⟨by omega, by omega⟩
  | succ i =>
    obtain ⟨h1, h2⟩ := hts u (List.mem_of_getElem? hu) c hc
    have := Step.demand_cons_le (r.step (i + 1)) c
    exact ⟨by omega, by omega⟩

@[simp] theorem linked_leaf (m c : Nat) (t : Token) : (leaf t).Linked m c := by
  simp [Linked, branches, Step.links]

theorem Linked.mono {m c c' : Nat} {t : Tree} (h : t.Linked m c) (hc : c ≤ c') : t.Linked m c' := by
  refine ⟨h.1.mono le_rfl (by omega), fun b hb => ?_⟩
  have := h.2 b hb
  omega

/-- A node whose rule was entered has no links at its top. -/
private theorem linked_ofRule {m : Nat} {r : Rule} {ts : List Tree} {p : Position} (hr : ∀ i, r.step i = .rule)
    (h : ∀ t ∈ ts, t.Fits m) : (ofRule r ts p).Linked m 0 := by
  refine ⟨bounded_ofRule h, fun b hb => ?_⟩
  obtain ⟨i, t, _, c, _, rfl⟩ := mem_branches_ofRule.1 hb
  simp [hr, Step.links]

/-- The levels that are left for a chain of links bound its length. -/
private theorem linked_link {m c : Nat} {r : Rule} {ts : List Tree} {p : Position} (hr : ∀ i, r.step i = .link)
    (hc : c ≤ m) (h : ∀ t ∈ ts, t.Linked m c) : (ofRule r ts p).Linked m (c + 1) := by
  have hbelow : ∀ b ∈ (ofRule r ts p).branches, ∃ t ∈ ts, ∃ below ∈ t.branches, b = .link :: below := by
    intro b hb
    obtain ⟨i, t, ht, below, hbelow, rfl⟩ := mem_branches_ofRule.1 hb
    exact ⟨t, List.mem_of_getElem? ht, below, hbelow, by rw [hr]⟩
  constructor
  · intro b hb
    obtain ⟨t, ht, below, hmem, rfl⟩ := hbelow b hb
    obtain ⟨h1, h2⟩ := (h t ht).1 below hmem
    have h3 := (h t ht).2 below hmem
    rw [Step.demand, List.length_cons]
    exact ⟨by omega, by omega⟩
  · intro b hb
    obtain ⟨t, ht, below, hmem, rfl⟩ := hbelow b hb
    have := (h t ht).2 below hmem
    rw [Step.links]
    omega

end Tree

/-! ### What patterns yield -/

namespace Pattern

/-- All trees that the pattern yields are in `Q`, if those in front are in `P`. -/
def Gives (P : Tree → Prop) (n : Nat) (p : Pattern) (Q : Tree → Prop) : Prop :=
  ∀ ⦃l ts xs us⦄, (∀ t ∈ l, P t) → Reads n p l ts (some (xs, us)) → ∀ t ∈ xs, Q t

section Rules

variable {P Q R : Tree → Prop} {n : Nat} {a b : Pattern}

private theorem gives_empty : empty.Gives P n Q := by
  rintro l ts xs us _ ⟨⟩
  simp

private theorem gives_take (hQ : ∀ t, Q (.leaf t)) {k : TokenClass} {e : String} : (take k e).Gives P n Q := by
  rintro l ts xs us _ ⟨⟩
  simpa using hQ _

private theorem gives_fail : fail.Gives P n Q := by
  rintro l ts xs us _ ⟨⟩

private theorem gives_reject {e : String} : (reject e).Gives P n Q := by
  rintro l ts xs us _ ⟨⟩

private theorem gives_closingLabel (hQ : ∀ t, Q (.leaf t)) : closingLabel.Gives P n Q := by
  intro l ts xs us _ h
  cases h with
  | label => simpa using hQ _
  | labelAbsent => simp

private theorem gives_left (hPQ : ∀ t, P t → Q t) : left.Gives P n Q := by
  rintro l ts xs us hl ⟨⟩ t ht
  exact hPQ t (hl t ht)

private theorem Gives.seq (ha : a.Gives P n Q) (hb : b.Gives P n Q) : (seq a b).Gives P n Q := by
  intro l ts xs us hl h
  cases h with
  | seq h1 h2 hz =>
    subst hz
    exact List.forall_mem_append.2 ⟨ha hl h1, hb hl h2⟩

private theorem Gives.orElse (ha : a.Gives P n Q) (hb : b.Gives P n Q) : (orElse a b).Gives P n Q := by
  intro l ts xs us hl h
  cases h with
  | orFirst h1 => exact ha hl h1
  | orSecond _ h2 => exact hb hl h2

private theorem Gives.ifNext (ha : a.Gives P n Q) (hb : b.Gives P n Q) {ahead : Lookahead} :
    (ifNext ahead a b).Gives P n Q := by
  intro l ts xs us hl h
  cases h with
  | nextYes _ h1 => exact ha hl h1
  | nextNo _ h2 => exact hb hl h2

private theorem Gives.many (ha : a.Gives P n Q) : (many a).Gives P n Q := by
  intro l ts
  -- Each round but the last leaves fewer tokens.
  induction hk : ts.length using Nat.strong_induction_on generalizing ts with
  | _ k ih =>
    intro xs us hl h
    cases h with
    | manyStop => simp
    | manyMore h1 hlt h2 hz =>
      subst hz
      exact List.forall_mem_append.2 ⟨ha hl h1, ih _ (hk ▸ hlt) rfl hl h2⟩
    | manyOnce h1 => exact ha hl h1

private theorem Gives.only (ha : a.Gives P n Q) {r : Rule} {e : String} : (only r e a).Gives P n Q := by
  intro l ts xs us hl h
  cases h with
  | only h1 _ => exact ha hl h1

private theorem Gives.onto (ha : a.Gives P n R) (hb : b.Gives R n Q) : (onto a b).Gives P n Q := by
  intro l ts xs us hl h
  cases h with
  | onto h1 h2 => exact hb (ha hl h1) h2

end Rules

/-! ### Calls, comparisons and references -/

section Levels

variable {P : Tree → Prop} {n : Nat}

/-- What a call yields has room for a node around it. -/
private theorem bounded_of_call {r : Rule} {l : List Tree} {ts us : List Token} {xs : List Tree}
    (hbody : ∀ m < n, r.body.Gives (fun _ => True) m (Tree.Fits m)) (h : Reads n (call r) l ts (some (xs, us))) :
    ∃ m t, n = m + 1 ∧ xs = [t] ∧ t.Bounded (m + 1) (m * (m + 3) + 2) := by
  cases h with
  | @call m _ _ _ ys _ _ hb hz =>
    refine ⟨m, _, rfl, hz, ?_⟩
    have hy : ∀ t ∈ ys, t.Bounded m (m * (m + 3)) := hbody m (by omega) (by simp) hb
    unfold Rule.build Tree.collapsed
    split
    · split
      · exact (hy _ (by simp)).mono (by omega) (by omega)
      · exact Tree.bounded_ofRule hy
    · exact Tree.bounded_ofRule hy

private theorem gives_call (r : Rule) (hbody : ∀ m < n, r.body.Gives (fun _ => True) m (Tree.Fits m)) :
    (call r).Gives P n (Tree.Fits n) := by
  intro l ts xs us _ h
  obtain ⟨m, t, rfl, rfl, ht⟩ := bounded_of_call hbody h
  simpa using ht.fits (c := 0) (by omega)

/-- A call that always yields a node yields one without links at its top. -/
private theorem gives_call_linked {m : Nat} (c : Nat) {r : Rule} (hr : ∀ i, r.step i = .rule) (hc : r.collapses = false)
    (hbody : r.body.Gives (fun _ => True) m (Tree.Fits m)) : (call r).Gives P (m + 1) (Tree.Linked m c) := by
  intro l ts xs us _ h
  cases h with
  | call hb hz =>
    subst hz
    have hnode := Tree.linked_ofRule (p := placeOf us) hr (hbody (by simp) hb)
    simpa [Rule.build, hc] using hnode.mono (Nat.zero_le c)

private theorem Gives.link {m c : Nat} {r : Rule} {a : Pattern} (hr : ∀ i, r.step i = .link) (hc : c ≤ m)
    (ha : a.Gives P n (Tree.Linked m c)) : (node r a).Gives P n (Tree.Linked m (c + 1)) := by
  intro l ts xs us hl h
  cases h with
  | node h1 hz =>
    subst hz
    simpa using Tree.linked_link hr hc (ha hl h1)

private theorem gives_link {m c : Nat} (hc : c ≤ m) (hbody : ∀ r : Rule, r.body.Gives (fun _ => True) m (Tree.Fits m)) :
    link.Gives (Tree.Linked m c) (m + 1) (Tree.Linked m (c + 1)) := by
  have hleft : left.Gives (Tree.Linked m c) (m + 1) (Tree.Linked m c) := gives_left fun _ ht => ht
  have htoken : ∀ k e, (take k e).Gives (Tree.Linked m c) (m + 1) (Tree.Linked m c) := fun _ _ =>
    gives_take (Tree.linked_leaf m c)
  refine .ifNext (.link (fun _ => rfl) hc (.seq hleft (.seq (htoken _ _) (htoken _ _)))) ?_
  refine .ifNext (.link (fun _ => rfl) hc (.seq hleft (.seq (htoken _ _) (htoken _ _)))) ?_
  exact .link (fun _ => rfl) hc (.seq hleft (gives_call_linked c (fun _ => rfl) rfl (hbody _)))

/-- With `c` links in a row the next one is matched only while there are `c + 1` levels. -/
private theorem fits_of_links {m c : Nat} {l : List Tree} {ts us : List Token} {xs : List Tree} (hc : c ≤ m + 1)
    (hbody : ∀ r : Rule, r.body.Gives (fun _ => True) m (Tree.Fits m)) (hl : ∀ t ∈ l, t.Linked m c)
    (h : Reads (m + 1) (.links linkAhead link (c + 1)) l ts (some (xs, us))) : ∀ t ∈ xs, t.Fits (m + 1) := by
  induction hk : ts.length using Nat.strong_induction_on generalizing c l ts with
  | _ k ih =>
    cases h with
    | linksStop => exact fun t ht => (hl t ht).1.fits hc
    | linksMore _ hroom h1 hlt h2 => exact ih _ (hk ▸ hlt) hroom (gives_link (by omega) hbody hl h1) h2 rfl
    | linksOnce _ hroom h1 => exact fun t ht => (gives_link (by omega) hbody hl h1 t ht).1.fits hroom

private theorem gives_reference (hbody : ∀ m < n, ∀ r : Rule, r.body.Gives (fun _ => True) m (Tree.Fits m)) :
    reference.Gives P n (Tree.Fits n) := by
  intro l ts xs us hl h
  cases h with
  | chain h1 h2 =>
    cases n with
    | zero =>
      -- Without a level there is no name to start from.
      cases h1 with
      | nextYes _ h => cases h
      | nextNo _ h => cases h
    | succ m =>
      have hm := hbody m (by omega)
      have hname : (Pattern.ifNext [[.oneOf [.colon]]] (.call .bindVariable) (.call .variableName)).Gives P (m + 1)
          (Tree.Linked m 0) :=
        .ifNext (gives_call_linked 0 (fun _ => rfl) rfl (hm _)) (gives_call_linked 0 (fun _ => rfl) rfl (hm _))
      exact fits_of_links (by omega) hm (hname hl h1) h2

private theorem exists_of_choice {ps : List Pattern} {l : List Tree} {ts : List Token} {x : List Tree × List Token}
    (h : Reads n (choice ps) l ts (some x)) : ∃ p ∈ ps, Reads n (.pattern p) l ts (some x) := by
  induction ps with
  | nil => cases h
  | cons p ps ih =>
    cases h with
    | orFirst h1 => exact ⟨p, by simp, h1⟩
    | orSecond _ h2 =>
      obtain ⟨q, hq, h3⟩ := ih h2
      exact ⟨q, by simp [hq], h3⟩

/-- What follows the left operand of a comparison consists of tokens and calls. -/
private theorem gives_comparisonTail {r : Rule} {tail : Pattern} (hm : (r, tail) ∈ comparisonTails)
    (hcall : ∀ r, (call r).Gives P n (Tree.Fits n)) : tail.Gives P n (Tree.Fits n) := by
  have htoken : ∀ k e, (take k e).Gives P n (Tree.Fits n) := fun _ _ => gives_take (Tree.bounded_leaf _ _)
  simp only [comparisonTails, List.mem_cons, Prod.mk.injEq, List.not_mem_nil, or_false] at hm
  rcases hm with ⟨_, rfl⟩ | ⟨_, rfl⟩ | ⟨_, rfl⟩ | ⟨_, rfl⟩ | ⟨_, rfl⟩ | ⟨_, rfl⟩
  all_goals
    simp only [relationalTail, collectionTail, isNullTail, likeTail, betweenTail, inTail, sequence, operand, expression,
      queryOr, bracketed, commaList, separated, opt, maybeKeyword, maybe, whenNext, keyword, word, terminal]
    repeat' first
      | exact htoken _ _
      | exact hcall _
      | exact gives_empty
      | apply Gives.seq
      | apply Gives.ifNext
      | apply Gives.orElse
      | apply Gives.many

private theorem step_zero_of_mem_comparisonTails {r : Rule} {tail : Pattern} (hm : (r, tail) ∈ comparisonTails) :
    r.step 0 = .left := by
  simp only [comparisonTails, List.mem_cons, Prod.mk.injEq, List.not_mem_nil, or_false] at hm
  rcases hm with ⟨rfl, _⟩ | ⟨rfl, _⟩ | ⟨rfl, _⟩ | ⟨rfl, _⟩ | ⟨rfl, _⟩ | ⟨rfl, _⟩ <;> rfl

private theorem exists_of_comparisonWith {m : Nat} {r : Rule} {tail : Pattern} {l : List Tree} {ts us : List Token}
    {xs : List Tree} (h : Reads (m + 1) (comparisonWith r tail) l ts (some (xs, us))) :
    ∃ ys p, xs = [.ofRule r (l ++ ys) p] ∧ Reads m (.pattern tail) l ts (some (ys, us)) := by
  cases h with
  | node h1 hz =>
    cases h1 with
    | seq h2 h3 hx =>
      cases h2
      cases h3 with
      | within h4 => exact ⟨_, _, hx ▸ hz, h4⟩

/-- A comparison is built around its left operand, and the call of the operand has left the room for it. -/
private theorem gives_comparison (hbody : ∀ m < n, ∀ r : Rule, r.body.Gives (fun _ => True) m (Tree.Fits m)) :
    comparison.Gives P n (Tree.Fits n) := by
  intro l ts xs us _ h
  cases h with
  | onto h1 h2 =>
    obtain ⟨m, t, rfl, rfl, ht⟩ := bounded_of_call (fun m hm => hbody m hm _) h1
    obtain ⟨p, hp, h3⟩ := exists_of_choice h2
    simp only [List.mem_append, List.mem_map, List.mem_singleton, Prod.exists] at hp
    rcases hp with ⟨r, tail, hm, rfl⟩ | rfl
    · obtain ⟨ys, p, rfl, h4⟩ := exists_of_comparisonWith h3
      have htail : tail.Gives (fun _ => True) m (Tree.Fits m) :=
        gives_comparisonTail hm fun r => gives_call r fun k hk => hbody k (by omega) r
      have hy : ∀ u ∈ ys, u.Bounded m (m * (m + 3) + 2) := fun u hu =>
        (htail (by simp) h4 u hu).mono le_rfl (by omega)
      have hnode := Tree.bounded_comparison (p := p) (step_zero_of_mem_comparisonTails hm) ht hy
      simpa using hnode.fits (c := 1) (by omega)
    · cases h3
      simpa using ht.fits (c := 0) (by omega)

end Levels

end Pattern

/-! ### Rules and parses -/

section

open Pattern

/-- What the body of a rule yields fits into the levels that are left for it. -/
theorem Rule.gives_body (n : Nat) (r : Rule) : r.body.Gives (fun _ => True) n (Tree.Fits n) := by
  induction n using Nat.strong_induction_on generalizing r with
  | _ n ih =>
    have htoken : ∀ P k e, (take k e).Gives P n (Tree.Fits n) := fun _ _ _ => gives_take (Tree.bounded_leaf _ _)
    have hlabel : ∀ P, closingLabel.Gives P n (Tree.Fits n) := fun _ => gives_closingLabel (Tree.bounded_leaf _ _)
    have hleft : left.Gives (Tree.Fits n) n (Tree.Fits n) := gives_left fun _ ht => ht
    have hcall : ∀ P r, (call r).Gives P n (Tree.Fits n) := fun _ r => gives_call r fun m hm => ih m hm r
    have hreference : ∀ P, reference.Gives P n (Tree.Fits n) := fun _ => gives_reference ih
    have hcomparison : ∀ P, comparison.Gives P n (Tree.Fits n) := fun _ => gives_comparison ih
    cases r <;>
      simp only [Rule.body, Pattern.sequence, choice, opt, whenNext, terminal, keyword, word, identifier,
        maybe, maybeKeyword, maybeWord, maybeIdentifier, clause, separated, commaList, bracketed, expression, queryOr,
        negation, literal, primary, signed, statement, statementRules, statements, declaration, declarationRules,
        maybeLabel, loop, loopRange, exitTail, workTail, dottedName, maybeEither, List.map, List.cons_append,
        List.nil_append]
    all_goals
      repeat' first
        | exact htoken _ _ _
        | exact hcall _ _
        | exact gives_empty
        | exact gives_fail
        | exact gives_reject
        | exact hreference _
        | exact hcomparison _
        | exact hlabel _
        | exact hleft
        | apply Gives.seq
        | apply Gives.ifNext
        | apply Gives.orElse
        | apply Gives.many
        | apply Gives.onto

private theorem Rule.gives_root (n : Nat) (r : Rule) : r.root.Gives (fun _ => True) n (Tree.Fits n) := by
  have hcall : ∀ r, (call r).Gives (fun _ => True) n (Tree.Fits n) := fun r => gives_call r fun m _ => gives_body m r
  have hreference : reference.Gives (fun _ => True) n (Tree.Fits n) := gives_reference fun m _ => gives_body m
  have hcomparison : comparison.Gives (fun _ => True) n (Tree.Fits n) := gives_comparison fun m _ => gives_body m
  have hliteral : literal.Gives (fun _ => True) n (Tree.Fits n) :=
    .ifNext (hcall _) (.ifNext (hcall _) (.ifNext (hcall _) (.ifNext (hcall _) gives_reject)))
  cases r
  case notExpression => exact .ifNext (hcall _) hcomparison
  case unaryExpression => exact .ifNext (hcall _) (hcall _)
  all_goals
    first
      | exact hcall _
      | exact .only hcomparison
      | exact .only hliteral
      | exact .only hreference

end

/-- A parsed tree has a branch for each of its leaves.  On a branch there are at most as many nodes whose rules were
entered as the bound on nesting allows, and together with the links of a run below them there are no more.  In all there
are at most `d * (d + 3) / 2` nodes over a leaf, where `d` is the bound. -/
theorem parseRule_branches (tokens : List Token) (limits : Limits) (root : Rule) (tree : Tree)
    (h : ((Parser.ofTokens tokens limits).parseRule root).1 = .ok tree) :
    tree.branches.length = tree.tokens.length ∧
    ∀ b ∈ tree.branches,
      b.count .rule ≤ limits.maxDepth ∧
      (∀ above run below, b = above ++ run ++ below → (∀ s ∈ run, s = .link) →
        above.count .rule + run.length ≤ limits.maxDepth) ∧
      2 * b.length ≤ limits.maxDepth * (limits.maxDepth + 3) := by
  obtain ⟨more, e, rest, hreads, _⟩ := Parser.reads_of_parseRule h
  have hfits : tree.Fits limits.maxDepth := root.gives_root limits.maxDepth (by simp) hreads tree (by simp)
  refine ⟨tree.length_branches, fun b hb => ?_⟩
  obtain ⟨hdemand, hlength⟩ := hfits b hb
  have hruns : ∀ above run below, b = above ++ run ++ below → (∀ s ∈ run, s = .link) →
      above.count .rule + run.length ≤ limits.maxDepth := by
    rintro above run below rfl hrun
    exact (Step.count_add_length_le_demand above hrun below).trans hdemand
  refine ⟨?_, hruns, hlength⟩
  simpa using hruns b [] [] (by simp) (by simp)

/-- In `a(*).b` the star is an argument of a call in a member: it lies under four nodes, with a bound of two. -/
theorem parseRule_branches_star :
    ∃ tree, ((Parser.ofTokens [.bare .identifier "a", .bare .leftParen "(", .bare .times "*", .bare .rightParen ")",
        .bare .dot ".", .bare .identifier "b"] (.forDepth 2)).parseRule .memberExpression).1 = .ok tree ∧
      [.link, .link, .rule, .rule] ∈ tree.branches ∧ tree.branches.length = tree.tokens.length ∧
      [Step.link, .link, .rule, .rule].count .rule ≤ 2 ∧
      [].count Step.rule + [Step.link, .link].length ≤ 2 ∧
      2 * [Step.link, .link, .rule, .rule].length ≤ 2 * (2 + 3) := by
  obtain ⟨tree, hparse, hmem⟩ : ∃ tree,
      ((Parser.ofTokens [.bare .identifier "a", .bare .leftParen "(", .bare .times "*", .bare .rightParen ")",
        .bare .dot ".", .bare .identifier "b"] (.forDepth 2)).parseRule .memberExpression).1 = .ok tree ∧
      [.link, .link, .rule, .rule] ∈ tree.branches :=
    ⟨.ofRule .memberExpression
      [.ofRule .methodCall
        [.ofRule .variableName [.leaf (.bare .identifier "a")] default,
          .ofRule .arguments
            [.leaf (.bare .leftParen "("), .ofRule .argument [.leaf (.bare .times "*")] default,
              .leaf (.bare .rightParen ")")] default] default,
        .leaf (.bare .dot "."), .leaf (.bare .identifier "b")] default, by cbv, by decide⟩
  obtain ⟨hleaves, hbranches⟩ := parseRule_branches _ _ _ _ hparse
  obtain ⟨hcount, hruns, hlength⟩ := hbranches _ hmem
  exact ⟨tree, hparse, hmem, hleaves, hcount, hruns [] [.link, .link] [.rule, .rule] rfl (by decide), hlength⟩

/-- The bound on nesting is no bound on the nodes over a leaf: in `a.b` the name of the reference lies under two nodes,
with a bound of one. -/
theorem not_length_branches_le :
    ¬ ∀ (tokens : List Token) (limits : Limits) (root : Rule) (tree : Tree),
      ((Parser.ofTokens tokens limits).parseRule root).1 = .ok tree →
      ∀ b ∈ tree.branches, b.length ≤ limits.maxDepth := by
  intro h
  have hparse : ((Parser.ofTokens [.bare .identifier "a", .bare .dot ".", .bare .identifier "b"]
      (.forDepth 1)).parseRule .memberExpression).1 =
      .ok (.ofRule .memberExpression
        [.ofRule .variableName [.leaf (.bare .identifier "a")] default, .leaf (.bare .dot "."),
          .leaf (.bare .identifier "b")] default) := by cbv
  have hlength := h _ _ _ _ hparse [.link, .rule] (by decide)
  exact absurd hlength (by decide)

end PlsqlLint
