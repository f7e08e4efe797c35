import PlsqlLint.Grammar.Parser
import PlsqlLint.Proofs.Reading

/-!
# Matching is reading

Matching a pattern and reading it come to the same outcome (`run_iff`), if the budget of stack is enough for all rules
that may be nested (`Limits.Ample`).  So what a pattern matches depends on nothing but the tokens, the trees in front
and the levels that are left.
-/

namespace PlsqlLint

/-! ### What a reply says about the tokens -/

namespace Cursor

private theorem fits_index (i j : Nat) (t : Token) (ts : List Token) (n : Nat) (ks : List TokenClass) :
    (Cursor.mk i t ts).fits n ks = (Cursor.mk j t ts).fits n ks := by
  induction ks generalizing n with
  | nil => rfl
  | cons k ks ih =>
    have hp : (Cursor.mk i t ts).peek n = (Cursor.mk j t ts).peek n := by cases n <;> rfl
    rw [fits, fits, ih, hp]

theorem sees_eq_holds (c : Cursor) (ahead : Lookahead) : c.sees ahead = ahead.holds c.tokens := by
  obtain ⟨i, t, ts⟩ := c
  show ahead.any _ = ahead.any _
  congr 1
  funext ks
  exact fits_index i 0 t ts 0 ks

theorem tokens_advance (c : Cursor) : c.advance.tokens = passed c.tokens := by
  obtain ⟨i, t, ts⟩ := c
  by_cases ht : t.terminal = .endOfInput
  · cases ts <;> simp [advance, atEnd, tokens, passed, ht]
  · cases ts <;> simp [advance, atEnd, tokens, passed, ht]

theorem length_tokens (c : Cursor) : c.tokens.length = c.ahead.length + 1 := rfl

private theorem ahead_lt_iff {c d : Cursor} : c.ahead.length < d.ahead.length ↔ c.tokens.length < d.tokens.length := by
  rw [length_tokens, length_tokens]
  omega

private theorem current_eq {c : Cursor} {t : Token} {ts : List Token} (h : c.tokens = t :: ts) : c.current = t :=
  (List.cons.inj h).1

end Cursor

/-- What holds of a state if it holds of all states with fewer tokens ahead, holds of every state.  This is the
induction for repetitions, which go on only behind what they have read. -/
theorem ParseState.ahead_induction {P : ParseState → Prop}
    (step : ∀ s, (∀ t : ParseState, t.cursor.ahead.length < s.cursor.ahead.length → P t) → P s) (s : ParseState) :
    P s :=
  (measure fun s : ParseState => s.cursor.ahead.length).wf.induction s step

/-- The outcome that a reply stands for; none if a bound was exceeded. -/
def Reply.outcome? : Reply → Option Reading
  | .matched trees s => some (some (trees, s.cursor.tokens))
  | .mismatch _ => some none
  | .fatal _ _ => none

namespace Reply

@[simp] theorem outcome?_matched (trees : List Tree) (s : ParseState) :
    (Reply.matched trees s).outcome? = some (some (trees, s.cursor.tokens)) := rfl

@[simp] theorem outcome?_mismatch (s : ParseState) : (Reply.mismatch s).outcome? = some none := rfl

@[simp] theorem outcome?_fatal (o : Overrun) (s : ParseState) : (Reply.fatal o s).outcome? = none := rfl

theorem eq_matched_of_outcome? {r : Reply} {xs : List Tree} {us : List Token}
    (h : r.outcome? = some (some (xs, us))) : ∃ s, r = .matched xs s ∧ s.cursor.tokens = us := by
  cases r with
  | matched trees s => cases h; exact ⟨s, rfl, rfl⟩
  | mismatch s => cases h
  | fatal o s => cases h

private theorem eq_mismatch_of_outcome? {r : Reply} (h : r.outcome? = some none) : ∃ s, r = .mismatch s := by
  cases r with
  | matched trees s => cases h
  | mismatch s => exact ⟨s, rfl⟩
  | fatal o s => cases h

@[simp] theorem outcome?_orBackTo (c : Cursor) (r : Reply) : (r.orBackTo c).outcome? = r.outcome? := by
  cases r <;> rfl

/-- A reply that goes on comes to something by going on behind a match, or it is a mismatch. -/
private theorem andThen_cases {r : Reply} {next : List Tree → ParseState → Reply} {o : Reading}
    (h : (r.andThen next).outcome? = some o) :
    (∃ xs s, r = .matched xs s ∧ (next xs s).outcome? = some o) ∨ (∃ s, r = .mismatch s) ∧ o = none := by
  cases r with
  | matched xs s => exact .inl ⟨xs, s, rfl, h⟩
  | mismatch s =>
    simp only [andThen, outcome?_mismatch, Option.some.injEq] at h
    exact .inr ⟨⟨s, rfl⟩, h.symm⟩
  | fatal e s => simp [andThen] at h

/-- What a reply comes to with trees in front. -/
private theorem after_cases {r : Reply} {trees : List Tree} {o : Reading} (h : (r.after trees).outcome? = some o) :
    (∃ ys s, r = .matched ys s ∧ o = some (trees ++ ys, s.cursor.tokens)) ∨ (∃ s, r = .mismatch s) ∧ o = none := by
  cases r with
  | matched ys s =>
    simp only [after, outcome?_matched, Option.some.injEq] at h
    exact .inl ⟨ys, s, rfl, h.symm⟩
  | mismatch s =>
    simp only [after, outcome?_mismatch, Option.some.injEq] at h
    exact .inr ⟨⟨s, rfl⟩, h.symm⟩
  | fatal e s => simp [after] at h

end Reply

/-! ### One level of matching -/

namespace Pattern

theorem run_eq_eval (n : Nat) (p : Pattern) : p.run n = p.eval n (deeper n) := by
  funext env s
  cases n <;> rfl

variable (n : Nat) (a b : Pattern)

theorem run_seq : (Pattern.seq a b).run n = Matcher.seq (a.run n) (b.run n) := by
  simp only [run_eq_eval]; rfl

theorem run_orElse : (Pattern.orElse a b).run n = Matcher.orElse (a.run n) (b.run n) := by
  simp only [run_eq_eval]; rfl

theorem run_many : (Pattern.many a).run n = Matcher.many (a.run n) := by
  simp only [run_eq_eval]; rfl

theorem run_ifNext (ahead : Lookahead) (env : Surroundings) (s : ParseState) :
    (Pattern.ifNext ahead a b).run n env s =
      if ahead.holds s.cursor.tokens then a.run n env s else b.run n env s := by
  rw [← Cursor.sees_eq_holds]
  simp only [run_eq_eval]; rfl

theorem run_within (r : Rule) : (Pattern.within r a).run n = Matcher.within n r (deeper n a) := by
  simp only [run_eq_eval]; rfl

theorem run_node (r : Rule) : (Pattern.node r a).run n = Matcher.node r (a.run n) := by
  simp only [run_eq_eval]; rfl

theorem run_collapse (r : Rule) : (Pattern.collapse r a).run n = Matcher.collapse r (a.run n) := by
  simp only [run_eq_eval]; rfl

theorem run_call (r : Rule) : (Pattern.call r).run n = Matcher.call n r (deeper n r.body) := by
  simp only [run_eq_eval]; rfl

theorem run_only (r : Rule) (e : String) : (Pattern.only r e a).run n = Matcher.only r e (a.run n) := by
  simp only [run_eq_eval]; rfl

theorem run_last : (Pattern.last a).run n = Matcher.last (a.run n) := by
  simp only [run_eq_eval]; rfl

theorem run_onto : (Pattern.onto a b).run n = Matcher.onto (a.run n) (b.run n) := by
  simp only [run_eq_eval]; rfl

theorem run_chain (ahead : Lookahead) :
    (Pattern.chain a ahead b).run n = Matcher.chain n (a.run n) ahead (b.run n) := by
  simp only [run_eq_eval]; rfl

end Pattern

/-! ### Room for levels, and the links of a chain -/

namespace Limits

variable {l : Limits} {rules : List Rule} {n : Nat}

/-- Limits for a program that uses 16 KiB of stack for each rule, with a budget for as many rules as may be nested. -/
def forDepth (maxDepth : Nat) : Limits := ⟨maxDepth, 16384 * maxDepth, fun rules _ => 16384 * rules.length⟩

theorem ample_forDepth (maxDepth : Nat) : (forDepth maxDepth).Ample := fun _ _ h => Nat.mul_le_mul_left _ h

/-- A budget that is enough may be higher. -/
theorem Ample.mono {l' : Limits} (h : l.Ample) (hdepth : l'.maxDepth = l.maxDepth) (huse : l'.stackUse = l.stackUse)
    (hb : l.stackBudget ≤ l'.stackBudget) : l'.Ample := by
  intro rules index hrules
  rw [huse]
  exact Nat.le_trans (h rules index (hdepth ▸ hrules)) hb

/-- Within the rules, `n` levels more are left, and the budget of stack is enough for them. -/
structure Allows (l : Limits) (rules : List Rule) (n : Nat) : Prop where
  ample : l.Ample
  le : rules.length + n ≤ l.maxDepth

/-- A rule takes one of the levels. -/
theorem Allows.enter (h : l.Allows rules (n + 1)) (r : Rule) : l.Allows (r :: rules) n := by
  have hle := h.le
  refine ⟨h.ample, ?_⟩
  rw [List.length_cons]
  omega

theorem Ample.allows (h : l.Ample) : l.Allows [] l.maxDepth := ⟨h, by simp⟩

end Limits

namespace Matcher

variable {levels wanted : Nat} {m : Matcher} {env : Surroundings} {s : ParseState}

/-- Where levels are left and the budget of stack is enough for them, there is room. -/
theorem shortage?_eq_none (hw : wanted ≤ levels) (hb : env.limits.Allows env.rules levels) :
    shortage? levels wanted env s = none := by
  have hle := hb.le
  have hlevels : ¬ levels < wanted := by omega
  have hstack : ¬ env.limits.stackBudget < env.limits.stackUse env.rules s.cursor.index :=
    Nat.not_lt.2 (hb.ample env.rules s.cursor.index (by omega))
  simp only [shortage?, hlevels, hstack, if_false]

theorem le_of_shortage?_eq_none (h : shortage? levels wanted env s = none) : wanted ≤ levels := by
  unfold shortage? at h
  split at h
  · cases h
  · omega

private theorem ifRoom_eq (hw : wanted ≤ levels) (hb : env.limits.Allows env.rules levels) :
    ifRoom levels wanted m env s = m env s := by
  rw [ifRoom, shortage?_eq_none hw hb]

/-- What is matched if there is room comes to an outcome only where there is room, and then to its own. -/
private theorem room_of_outcome? {o : Reading} (h : (ifRoom levels wanted m env s).outcome? = some o) :
    wanted ≤ levels ∧ (m env s).outcome? = some o := by
  unfold ifRoom at h
  split at h
  · cases h
  · rename_i hroom
    exact ⟨le_of_shortage?_eq_none hroom, h⟩

/-- Within a rule, a matcher comes to the same as with the rule among those that are being matched. -/
private theorem outcome?_within (n : Nat) (r : Rule) (hb : env.limits.Allows env.rules (n + 1)) :
    (within (n + 1) r m env s).outcome? = (m { env with rules := r :: env.rules } s).outcome? := by
  rw [within, ifRoom_eq (by omega) hb, Reply.outcome?_orBackTo]

/-- Where a link is ahead, it is matched if there is room for it, and behind it come the others, if it has read
something. -/
theorem links_eq (n : Nat) (ahead : Lookahead) (m : Matcher) (env : Surroundings) (count : Nat) (trees : List Tree)
    (s : ParseState) :
    links n ahead m env count trees s =
      if s.cursor.sees ahead then
        (ifRoom n count m { env with left := trees } s).andThen fun xs t =>
          if t.cursor.ahead.length < s.cursor.ahead.length then links n ahead m env (count + 1) xs t
          else .matched xs t
      else .matched trees s := by
  rw [links]
  split
  · cases ifRoom n count m { env with left := trees } s with
    | matched xs t => rfl
    | mismatch t => rfl
    | fatal o t => rfl
  · rfl

end Matcher

/-! ### What is matched is read -/

/-- Whatever the matcher comes to is a reading of the task. -/
def Matcher.Sound (n : Nat) (task : Task) (m : Matcher) : Prop :=
  ∀ env s o, (m env s).outcome? = some o → Reads n task env.left s.cursor.tokens o

namespace Matcher

variable {n : Nat} {a b : Pattern} {ma mb : Matcher}

private theorem Sound.seq (ha : Sound n a ma) (hb : Sound n b mb) : Sound n (Pattern.seq a b) (Matcher.seq ma mb) := by
  intro env s o h
  rcases Reply.andThen_cases h with ⟨xs, s1, hr, h⟩ | ⟨⟨s1, hr⟩, rfl⟩
  · have h1 := ha env s _ (congrArg Reply.outcome? hr)
    rcases Reply.after_cases h with ⟨ys, s2, hr2, rfl⟩ | ⟨⟨s2, hr2⟩, rfl⟩
    · exact .seq h1 (hb env s1 _ (congrArg Reply.outcome? hr2)) rfl
    · exact .seqSecond h1 (hb env s1 _ (congrArg Reply.outcome? hr2))
  · exact .seqFirst (ha env s _ (congrArg Reply.outcome? hr))

private theorem Sound.orElse (ha : Sound n a ma) (hb : Sound n b mb) :
    Sound n (Pattern.orElse a b) (Matcher.orElse ma mb) := by
  intro env s o h
  unfold Matcher.orElse at h
  have h1 := ha env s
  cases hr : ma env s with
  | matched xs s1 =>
    rw [hr] at h h1
    simp only [Reply.outcome?_matched, Option.some.injEq] at h
    subst h
    exact .orFirst (h1 _ rfl)
  | mismatch s1 =>
    rw [hr] at h h1
    exact .orSecond (h1 _ rfl) (hb env (s1.backTo s.cursor) o h)
  | fatal e s1 => rw [hr] at h; simp at h

private theorem Sound.many (ha : Sound n a ma) : Sound n (Pattern.many a) (Matcher.many ma) := by
  intro env s o h
  induction s using ParseState.ahead_induction generalizing o with
  | step s ih =>
  rw [Matcher.many] at h
  have h1 := ha env s
  cases hr : ma env s with
  | matched xs s1 =>
    rw [hr] at h h1
    simp only at h
    split at h
    · rename_i hlt
      rcases Reply.after_cases h with ⟨ys, s2, hr2, rfl⟩ | ⟨⟨s2, hr2⟩, rfl⟩
      · exact .manyMore (h1 _ rfl) (Cursor.ahead_lt_iff.1 hlt) (ih s1 hlt _ (congrArg Reply.outcome? hr2)) rfl
      · -- a repetition never fails to match
        cases ih s1 hlt _ (congrArg Reply.outcome? hr2)
    · rename_i hle
      rw [Cursor.ahead_lt_iff] at hle
      simp only [Reply.outcome?_matched, Option.some.injEq] at h
      subst h
      exact .manyOnce (h1 _ rfl) (by omega)
  | mismatch s1 =>
    rw [hr] at h h1
    simp only [Reply.outcome?_matched, Option.some.injEq] at h
    subst h
    exact .manyStop (h1 _ rfl)
  | fatal e s1 => rw [hr] at h; simp at h

private theorem Sound.links {ahead : Lookahead} (ha : Sound n a ma) {env : Surroundings} {count : Nat}
    {trees : List Tree} {s : ParseState} {o : Reading}
    (h : (Matcher.links n ahead ma env count trees s).outcome? = some o) :
    Reads n (.links ahead a count) trees s.cursor.tokens o := by
  induction s using ParseState.ahead_induction generalizing trees count with
  | step s ih =>
  rw [links_eq] at h
  split at h
  · rename_i hs
    rw [Cursor.sees_eq_holds] at hs
    rcases Reply.andThen_cases h with ⟨xs, s1, hr, h⟩ | ⟨⟨s1, hr⟩, rfl⟩
    · obtain ⟨hc, hlink⟩ := room_of_outcome? (congrArg Reply.outcome? hr)
      have h1 := ha _ s _ hlink
      split at h
      · rename_i hlt
        exact .linksMore hs hc h1 (Cursor.ahead_lt_iff.1 hlt) (ih s1 hlt h)
      · rename_i hle
        rw [Cursor.ahead_lt_iff] at hle
        simp only [Reply.outcome?_matched, Option.some.injEq] at h
        subst h
        exact .linksOnce hs hc h1 (by omega)
    · obtain ⟨hc, hlink⟩ := room_of_outcome? (congrArg Reply.outcome? hr)
      exact .linksNot hs hc (ha _ s _ hlink)
  · rename_i hs
    rw [Cursor.sees_eq_holds] at hs
    simp only [Reply.outcome?_matched, Option.some.injEq] at h
    subst h
    exact .linksStop (by simpa using hs)

private theorem Sound.within {r : Rule} {below : Matcher} (hbelow : ∀ k, n = k + 1 → Sound k a below) :
    Sound n (Pattern.within r a) (Matcher.within n r below) := by
  intro env s o h
  obtain ⟨hn, hbody⟩ := room_of_outcome? h
  obtain ⟨k, rfl⟩ : ∃ k, n = k + 1 := ⟨n - 1, by omega⟩
  rw [Reply.outcome?_orBackTo] at hbody
  exact .within (hbelow k rfl { env with rules := r :: env.rules } s o hbody)

private theorem Sound.node {r : Rule} (ha : Sound n a ma) : Sound n (Pattern.node r a) (Matcher.node r ma) := by
  intro env s o h
  rcases Reply.andThen_cases h with ⟨xs, s1, hr, h⟩ | ⟨⟨s1, hr⟩, rfl⟩
  · simp only [Reply.outcome?_matched, Option.some.injEq] at h
    subst h
    exact .node (ha env s _ (congrArg Reply.outcome? hr)) rfl
  · exact .nodeNot (ha env s _ (congrArg Reply.outcome? hr))

/-- What collapsing makes of the trees of a match. -/
private theorem collapse_matched (r : Rule) {m : Matcher} {env : Surroundings} {s s' : ParseState} {xs : List Tree}
    (h : m env s = .matched xs s') :
    collapse r m env s = .matched [.collapsed r xs s'.cursor.current.span.start] s' := by
  unfold collapse
  rw [h, Reply.andThen]
  split <;> simp_all [Tree.collapsed]

private theorem Sound.collapse {r : Rule} (ha : Sound n a ma) :
    Sound n (Pattern.collapse r a) (Matcher.collapse r ma) := by
  intro env s o h
  rcases Reply.andThen_cases h with ⟨xs, s1, hr, -⟩ | ⟨⟨s1, hr⟩, rfl⟩
  · rw [collapse_matched r hr] at h
    simp only [Reply.outcome?_matched, Option.some.injEq] at h
    subst h
    exact .collapse (ha env s _ (congrArg Reply.outcome? hr)) rfl
  · exact .collapseNot (ha env s _ (congrArg Reply.outcome? hr))

private theorem Sound.call {r : Rule} {below : Matcher} (hbelow : ∀ k, n = k + 1 → Sound k r.body below) :
    Sound n (Pattern.call r) (Matcher.call n r below) := by
  intro env s o h
  have hw := Sound.within (r := r) hbelow
  unfold Matcher.call at h
  split at h
  · rename_i hc
    have h1 := Sound.collapse (r := r) hw _ _ _ h
    cases h1 with
    | collapse ha hz =>
      cases ha with
      | within ha => exact .call ha (by rw [hz, Rule.build, if_pos hc])
    | collapseNot ha =>
      cases ha with
      | within ha => exact .callNot ha
  · rename_i hc
    have h1 := Sound.node (r := r) hw _ _ _ h
    cases h1 with
    | node ha hz =>
      cases ha with
      | within ha => exact .call ha (by rw [hz, Rule.build, if_neg hc])
    | nodeNot ha =>
      cases ha with
      | within ha => exact .callNot ha

private theorem Sound.only {r : Rule} {e : String} (ha : Sound n a ma) :
    Sound n (Pattern.only r e a) (Matcher.only r e ma) := by
  intro env s o h
  rcases Reply.andThen_cases h with ⟨xs, s1, hr, h⟩ | ⟨⟨s1, hr⟩, rfl⟩
  · have h1 := ha env s _ (congrArg Reply.outcome? hr)
    split at h
    · rename_i hall
      simp only [Reply.outcome?_matched, Option.some.injEq] at h
      subst h
      exact .only h1 hall
    · rename_i hall
      simp only [reject, Reply.outcome?_mismatch, Option.some.injEq] at h
      subst h
      exact .onlyOther h1 (by simpa using hall)
  · exact .onlyNot (ha env s _ (congrArg Reply.outcome? hr))

private theorem Sound.last (ha : Sound n a ma) : Sound n (Pattern.last a) (Matcher.last ma) := by
  intro env s o h
  rcases Reply.andThen_cases h with ⟨xs, s1, hr, h⟩ | ⟨⟨s1, hr⟩, rfl⟩
  · simp only [Reply.outcome?_matched, Option.some.injEq] at h
    subst h
    exact .last (ha env s _ (congrArg Reply.outcome? hr)) rfl
  · exact .lastNot (ha env s _ (congrArg Reply.outcome? hr))

private theorem Sound.onto (ha : Sound n a ma) (hb : Sound n b mb) :
    Sound n (Pattern.onto a b) (Matcher.onto ma mb) := by
  intro env s o h
  rcases Reply.andThen_cases h with ⟨xs, s1, hr, h⟩ | ⟨⟨s1, hr⟩, rfl⟩
  · exact .onto (ha env s _ (congrArg Reply.outcome? hr)) (hb { env with left := xs } s1 o h)
  · exact .ontoNot (ha env s _ (congrArg Reply.outcome? hr))

private theorem Sound.chain {ahead : Lookahead} (ha : Sound n a ma) (hb : Sound n b mb) :
    Sound n (Pattern.chain a ahead b) (Matcher.chain n ma ahead mb) := by
  intro env s o h
  rcases Reply.andThen_cases h with ⟨xs, s1, hr, h⟩ | ⟨⟨s1, hr⟩, rfl⟩
  · exact .chain (ha env s _ (congrArg Reply.outcome? hr)) (Sound.links hb h)
  · exact .chainNot (ha env s _ (congrArg Reply.outcome? hr))

private theorem Sound.closingLabel : Sound n Pattern.closingLabel Matcher.closingLabel := by
  intro env s o h
  unfold Matcher.closingLabel at h
  split at h
  · rename_i hn
    split at h
    · rename_i name hl
      split at h
      · rename_i hs
        simp only [advance, Reply.outcome?_matched, Option.some.injEq] at h
        subst h
        exact .label hn hl hs (Cursor.tokens_advance _)
      · rename_i hs
        simp only [reject, Reply.outcome?_mismatch, Option.some.injEq] at h
        subst h
        exact .labelOther hn hl (by simpa using hs)
    · rename_i hl
      simp only [reject, Reply.outcome?_mismatch, Option.some.injEq] at h
      subst h
      exact .labelNone hn hl
  · rename_i hn
    simp only [Reply.outcome?_matched, Option.some.injEq] at h
    subst h
    exact .labelAbsent (by simpa using hn)

private theorem Sound.take {k : TokenClass} {e : String} : Sound n (Pattern.take k e) (Matcher.take k e) := by
  intro env s o h
  unfold Matcher.take at h
  split at h
  · rename_i ht
    simp only [advance, Reply.outcome?_matched, Option.some.injEq] at h
    subst h
    exact .take ht (Cursor.tokens_advance _)
  · rename_i ht
    simp only [reject, Reply.outcome?_mismatch, Option.some.injEq] at h
    subst h
    exact .takeNot (by simpa using ht)

end Matcher

/-- What a pattern matches is read. -/
theorem run_sound (n : Nat) (p : Pattern) : Matcher.Sound n p (p.run n) := by
  induction n using Nat.strongRecOn generalizing p with
  | ind n ihn =>
  have hdeep : ∀ q k, n = k + 1 → Matcher.Sound k (.pattern q) (Pattern.deeper n q) := by
    intro q k hk
    subst hk
    exact ihn k (by omega) q
  induction p with
  | empty =>
    intro env s o h
    rw [Pattern.run_eq_eval] at h
    cases h
    exact .empty
  | take k e =>
    rw [Pattern.run_eq_eval]
    exact Matcher.Sound.take
  | advance =>
    intro env s o h
    rw [Pattern.run_eq_eval] at h
    cases h
    exact .advance (Cursor.tokens_advance _)
  | fail =>
    intro env s o h
    rw [Pattern.run_eq_eval] at h
    cases h
    exact .fail
  | reject e =>
    intro env s o h
    rw [Pattern.run_eq_eval] at h
    cases h
    exact .reject
  | room wanted =>
    intro env s o h
    rw [Pattern.run_eq_eval] at h
    obtain ⟨hwanted, h⟩ := Matcher.room_of_outcome? h
    cases h
    exact .room hwanted
  | seq a b iha ihb => rw [Pattern.run_seq]; exact iha.seq ihb
  | orElse a b iha ihb => rw [Pattern.run_orElse]; exact iha.orElse ihb
  | many a iha => rw [Pattern.run_many]; exact iha.many
  | ifNext ahead a b iha ihb =>
    intro env s o h
    rw [Pattern.run_ifNext] at h
    split at h
    · rename_i hs; exact .nextYes hs (iha env s o h)
    · rename_i hs; exact .nextNo (by simpa using hs) (ihb env s o h)
  | within r a iha => rw [Pattern.run_within]; exact Matcher.Sound.within (hdeep a)
  | node r a iha => rw [Pattern.run_node]; exact iha.node
  | collapse r a iha => rw [Pattern.run_collapse]; exact iha.collapse
  | call r => rw [Pattern.run_call]; exact Matcher.Sound.call (hdeep r.body)
  | only r e a iha => rw [Pattern.run_only]; exact iha.only
  | last a iha => rw [Pattern.run_last]; exact iha.last
  | onto a b iha ihb => rw [Pattern.run_onto]; exact iha.onto ihb
  | left =>
    intro env s o h
    rw [Pattern.run_eq_eval] at h
    cases h
    exact .left
  | chain a ahead b iha ihb => rw [Pattern.run_chain]; exact iha.chain ihb
  | closingLabel =>
    rw [Pattern.run_eq_eval]
    exact Matcher.Sound.closingLabel

/-! ### What is read is matched -/

/-- What matching a task with the trees `l` in front comes to. -/
def Task.outcome? (n : Nat) (env : Surroundings) (l : List Tree) (s : ParseState) : Task → Option Reading
  | .pattern p => (p.run n { env with left := l } s).outcome?
  | .links ahead link count => (Matcher.links n ahead (link.run n) env count l s).outcome?

/-- What is read is matched, in any surroundings that allow as many levels. -/
theorem Reads.outcome {n : Nat} {task : Task} {l : List Tree} {ts : List Token} {o : Reading}
    (h : Reads n task l ts o) (env : Surroundings) {s : ParseState} (hb : env.limits.Allows env.rules n)
    (hs : s.cursor.tokens = ts) : task.outcome? n env l s = some o := by
  induction h generalizing env s with
  | empty => subst hs; simp only [Task.outcome?, Pattern.run_eq_eval]; rfl
  | take ht hu =>
    have hc := Cursor.current_eq hs
    simp only [Task.outcome?, Pattern.run_eq_eval, Pattern.eval, Matcher.take, hc, ht, if_true, Matcher.advance,
      Reply.outcome?_matched, hu, ← hs, ← Cursor.tokens_advance]
    rfl
  | takeNot ht =>
    have hc := Cursor.current_eq hs
    simp [Task.outcome?, Pattern.run_eq_eval, Pattern.eval, Matcher.take, hc, ht, Matcher.reject]
  | advance hu =>
    have hc := Cursor.current_eq hs
    simp only [Task.outcome?, Pattern.run_eq_eval, Pattern.eval, hc, Matcher.advance,
      Reply.outcome?_matched, hu, ← hs, ← Cursor.tokens_advance]
    rfl
  | fail => simp only [Task.outcome?, Pattern.run_eq_eval]; rfl
  | reject => simp only [Task.outcome?, Pattern.run_eq_eval]; rfl
  | room hw =>
    subst hs
    simp only [Task.outcome?, Pattern.run_eq_eval, Pattern.eval]
    rw [Matcher.ifRoom_eq hw (by exact hb)]
    rfl
  | seq ha hb' hz iha ihb =>
    obtain ⟨s1, hr, h1⟩ := Reply.eq_matched_of_outcome? (iha env hb hs)
    obtain ⟨s2, hr2, h2⟩ := Reply.eq_matched_of_outcome? (ihb env hb h1)
    simp only [Task.outcome?, Pattern.run_seq, Matcher.seq, hr, Reply.andThen, hr2, Reply.after,
      Reply.outcome?_matched, h2, hz]
  | seqFirst ha iha =>
    obtain ⟨s1, hr⟩ := Reply.eq_mismatch_of_outcome? (iha env hb hs)
    simp only [Task.outcome?, Pattern.run_seq, Matcher.seq, hr, Reply.andThen, Reply.outcome?_mismatch]
  | seqSecond ha hb' iha ihb =>
    obtain ⟨s1, hr, h1⟩ := Reply.eq_matched_of_outcome? (iha env hb hs)
    obtain ⟨s2, hr2⟩ := Reply.eq_mismatch_of_outcome? (ihb env hb h1)
    simp only [Task.outcome?, Pattern.run_seq, Matcher.seq, hr, Reply.andThen, hr2, Reply.after,
      Reply.outcome?_mismatch]
  | orFirst ha iha =>
    obtain ⟨s1, hr, h1⟩ := Reply.eq_matched_of_outcome? (iha env hb hs)
    simp only [Task.outcome?, Pattern.run_orElse, Matcher.orElse, hr, Reply.outcome?_matched, h1]
  | orSecond ha hb' iha ihb =>
    obtain ⟨s1, hr⟩ := Reply.eq_mismatch_of_outcome? (iha env hb hs)
    simp only [Task.outcome?, Pattern.run_orElse, Matcher.orElse, hr]
    exact ihb env hb hs
  | manyStop ha iha =>
    obtain ⟨s1, hr⟩ := Reply.eq_mismatch_of_outcome? (iha env hb hs)
    subst hs
    simp only [Task.outcome?, Pattern.run_many]
    rw [Matcher.many, hr]
    rfl
  | manyMore ha hlt hm hz iha ihm =>
    obtain ⟨s1, hr, h1⟩ := Reply.eq_matched_of_outcome? (iha env hb hs)
    obtain ⟨s2, hr2, h2⟩ := Reply.eq_matched_of_outcome? (ihm env hb h1)
    rw [← h1, ← hs, ← Cursor.ahead_lt_iff] at hlt
    rw [Pattern.run_many] at hr2
    simp only [Task.outcome?, Pattern.run_many]
    rw [Matcher.many, hr]
    simp only [hlt, if_true, hr2, Reply.after, Reply.outcome?_matched, h2, hz]
  | manyOnce ha hle iha =>
    obtain ⟨s1, hr, h1⟩ := Reply.eq_matched_of_outcome? (iha env hb hs)
    rw [← h1, ← hs, ← Nat.not_lt, ← Cursor.ahead_lt_iff] at hle
    simp only [Task.outcome?, Pattern.run_many]
    rw [Matcher.many, hr]
    simp only [hle, if_false, Reply.outcome?_matched, h1]
  | nextYes ht ha iha =>
    simp only [Task.outcome?, Pattern.run_ifNext, hs, ht, if_true]
    exact iha env hb hs
  | nextNo ht hb' ihb =>
    simp only [Task.outcome?, Pattern.run_ifNext, hs, ht, Bool.false_eq_true, if_false]
    exact ihb env hb hs
  | @within n r a l ts o ha iha =>
    simp only [Task.outcome?, Pattern.run_within]
    rw [Matcher.outcome?_within n r (by exact hb)]
    exact iha { env with rules := r :: env.rules } (hb.enter r) hs
  | node ha hz iha =>
    obtain ⟨s1, hr, h1⟩ := Reply.eq_matched_of_outcome? (iha env hb hs)
    subst h1
    simp only [Task.outcome?, Pattern.run_node, Matcher.node, hr, Reply.andThen, hz]
    rfl
  | nodeNot ha iha =>
    obtain ⟨s1, hr⟩ := Reply.eq_mismatch_of_outcome? (iha env hb hs)
    simp only [Task.outcome?, Pattern.run_node, Matcher.node, hr, Reply.andThen, Reply.outcome?_mismatch]
  | collapse ha hz iha =>
    obtain ⟨s1, hr, h1⟩ := Reply.eq_matched_of_outcome? (iha env hb hs)
    subst h1
    simp only [Task.outcome?, Pattern.run_collapse, Matcher.collapse_matched _ hr, hz]
    rfl
  | collapseNot ha iha =>
    obtain ⟨s1, hr⟩ := Reply.eq_mismatch_of_outcome? (iha env hb hs)
    simp only [Task.outcome?, Pattern.run_collapse, Matcher.collapse, hr, Reply.andThen, Reply.outcome?_mismatch]
  | @call n r l ts xs us zs ha hz iha =>
    have hw : (Matcher.within (n + 1) r (r.body.run n) { env with left := [] } s).outcome? =
        some (some (xs, us)) := by
      rw [Matcher.outcome?_within n r (by exact hb)]
      exact iha { env with rules := r :: env.rules } (hb.enter r) hs
    obtain ⟨s1, hr, h1⟩ := Reply.eq_matched_of_outcome? hw
    subst h1
    simp only [Task.outcome?, Pattern.run_call, Pattern.deeper, Matcher.call, hz, Rule.build]
    split
    · simp only [Matcher.collapse_matched r hr]; rfl
    · simp only [Matcher.node, hr, Reply.andThen]; rfl
  | @callNot n r l ts ha iha =>
    have hw : (Matcher.within (n + 1) r (r.body.run n) { env with left := [] } s).outcome? = some none := by
      rw [Matcher.outcome?_within n r (by exact hb)]
      exact iha { env with rules := r :: env.rules } (hb.enter r) hs
    obtain ⟨s1, hr⟩ := Reply.eq_mismatch_of_outcome? hw
    simp only [Task.outcome?, Pattern.run_call, Pattern.deeper, Matcher.call]
    split
    · simp only [Matcher.collapse, hr, Reply.andThen, Reply.outcome?_mismatch]
    · simp only [Matcher.node, hr, Reply.andThen, Reply.outcome?_mismatch]
  | only ha hall iha =>
    obtain ⟨s1, hr, h1⟩ := Reply.eq_matched_of_outcome? (iha env hb hs)
    simp only [Task.outcome?, Pattern.run_only, Matcher.only, hr, Reply.andThen, hall, if_true,
      Reply.outcome?_matched, h1]
  | onlyOther ha hall iha =>
    obtain ⟨s1, hr, h1⟩ := Reply.eq_matched_of_outcome? (iha env hb hs)
    simp only [Task.outcome?, Pattern.run_only, Matcher.only, hr, Reply.andThen, hall, Bool.false_eq_true, if_false,
      Matcher.reject, Reply.outcome?_mismatch]
  | onlyNot ha iha =>
    obtain ⟨s1, hr⟩ := Reply.eq_mismatch_of_outcome? (iha env hb hs)
    simp only [Task.outcome?, Pattern.run_only, Matcher.only, hr, Reply.andThen, Reply.outcome?_mismatch]
  | last ha hz iha =>
    obtain ⟨s1, hr, h1⟩ := Reply.eq_matched_of_outcome? (iha env hb hs)
    simp only [Task.outcome?, Pattern.run_last, Matcher.last, hr, Reply.andThen, Reply.outcome?_matched, h1, hz]
  | lastNot ha iha =>
    obtain ⟨s1, hr⟩ := Reply.eq_mismatch_of_outcome? (iha env hb hs)
    simp only [Task.outcome?, Pattern.run_last, Matcher.last, hr, Reply.andThen, Reply.outcome?_mismatch]
  | onto ha hb' iha ihb =>
    obtain ⟨s1, hr, h1⟩ := Reply.eq_matched_of_outcome? (iha env hb hs)
    simp only [Task.outcome?, Pattern.run_onto, Matcher.onto, hr, Reply.andThen]
    exact ihb env hb h1
  | ontoNot ha iha =>
    obtain ⟨s1, hr⟩ := Reply.eq_mismatch_of_outcome? (iha env hb hs)
    simp only [Task.outcome?, Pattern.run_onto, Matcher.onto, hr, Reply.andThen, Reply.outcome?_mismatch]
  | left => subst hs; simp only [Task.outcome?, Pattern.run_eq_eval]; rfl
  | chain ha hl iha ihl =>
    obtain ⟨s1, hr, h1⟩ := Reply.eq_matched_of_outcome? (iha env hb hs)
    simp only [Task.outcome?, Pattern.run_chain, Matcher.chain, hr, Reply.andThen]
    exact ihl _ (by exact hb) h1
  | chainNot ha iha =>
    obtain ⟨s1, hr⟩ := Reply.eq_mismatch_of_outcome? (iha env hb hs)
    simp only [Task.outcome?, Pattern.run_chain, Matcher.chain, hr, Reply.andThen, Reply.outcome?_mismatch]
  | label hn hl hsame hu =>
    have hc := Cursor.current_eq hs
    simp only [Task.outcome?, Pattern.run_eq_eval, Pattern.eval, Matcher.closingLabel, hc, hn, if_true, hl, hsame,
      Matcher.advance, Reply.outcome?_matched, hu, ← hs, ← Cursor.tokens_advance]
    rfl
  | labelOther hn hl hsame =>
    have hc := Cursor.current_eq hs
    simp [Task.outcome?, Pattern.run_eq_eval, Pattern.eval, Matcher.closingLabel, hc, hn, hl, hsame, Matcher.reject]
  | labelNone hn hl =>
    have hc := Cursor.current_eq hs
    simp [Task.outcome?, Pattern.run_eq_eval, Pattern.eval, Matcher.closingLabel, hc, hn, hl, Matcher.reject]
  | labelAbsent hn =>
    have hc := Cursor.current_eq hs
    simp [Task.outcome?, Pattern.run_eq_eval, Pattern.eval, Matcher.closingLabel, hc, hn, hs]
  | linksStop ht =>
    subst hs
    rw [← Cursor.sees_eq_holds] at ht
    rw [Task.outcome?, Matcher.links_eq, ht]
    rfl
  | linksMore ht hc ha hlt hm iha ihm =>
    obtain ⟨s1, hr, h1⟩ := Reply.eq_matched_of_outcome? (iha env hb hs)
    rw [← h1, ← hs, ← Cursor.ahead_lt_iff] at hlt
    rw [← hs, ← Cursor.sees_eq_holds] at ht
    rw [Task.outcome?, Matcher.links_eq, if_pos ht, Matcher.ifRoom_eq hc (by exact hb), hr, Reply.andThen, if_pos hlt]
    exact ihm env hb h1
  | linksOnce ht hc ha hle iha =>
    obtain ⟨s1, hr, h1⟩ := Reply.eq_matched_of_outcome? (iha env hb hs)
    rw [← h1, ← hs, ← Nat.not_lt, ← Cursor.ahead_lt_iff] at hle
    rw [← hs, ← Cursor.sees_eq_holds] at ht
    rw [Task.outcome?, Matcher.links_eq, if_pos ht, Matcher.ifRoom_eq hc (by exact hb), hr, Reply.andThen, if_neg hle,
      Reply.outcome?_matched, h1]
  | linksNot ht hc ha iha =>
    obtain ⟨s1, hr⟩ := Reply.eq_mismatch_of_outcome? (iha env hb hs)
    rw [← hs, ← Cursor.sees_eq_holds] at ht
    rw [Task.outcome?, Matcher.links_eq, if_pos ht, Matcher.ifRoom_eq hc (by exact hb), hr, Reply.andThen,
      Reply.outcome?_mismatch]

/-- Matching and reading a pattern come to the same. -/
theorem run_iff {n : Nat} {p : Pattern} {env : Surroundings} {s : ParseState} {o : Reading}
    (hb : env.limits.Allows env.rules n) :
    (p.run n env s).outcome? = some o ↔ Reads n p env.left s.cursor.tokens o :=
  ⟨run_sound n p env s o, fun h => h.outcome env hb rfl⟩

/-- A task is read in one way only, however many levels are left. -/
theorem Reads.unique {m n : Nat} {p : Pattern} {l : List Tree} {ts : List Token} {o o' : Reading}
    (h : Reads m p l ts o) (h' : Reads n p l ts o') (hts : ts ≠ []) : o = o' := by
  obtain ⟨t, ts, rfl⟩ := List.exists_cons_of_ne_nil hts
  have hm := h.mono (Nat.le_max_left m n)
  have hn := h'.mono (Nat.le_max_right m n)
  have hb := (Limits.ample_forDepth (max m n)).allows
  have e := hm.outcome ⟨.forDepth (max m n), [], l⟩ (s := ⟨⟨0, t, ts⟩, none⟩) hb rfl
  have e' := hn.outcome ⟨.forDepth (max m n), [], l⟩ (s := ⟨⟨0, t, ts⟩, none⟩) hb rfl
  exact Option.some.inj (e.symm.trans e')

/-! ### Parsing a whole stream -/

namespace Parser

/-- A successful parse reads the root up to the end of the input. -/
theorem reads_of_parseRule {p : Parser} {rule : Rule} {tree : Tree} (h : (p.parseRule rule).1 = .ok tree) :
    ∃ more e rest, Reads p.limits.maxDepth rule.root [] p.tokens (some (tree :: more, e :: rest)) ∧
      e.terminal = .endOfInput := by
  unfold parseRule at h
  dsimp only at h
  cases hr : rule.root.matchAt p.limits p.start with
  | matched trees s =>
    have h1 := run_sound _ _ _ _ _ (congrArg Reply.outcome? hr)
    rw [hr] at h
    cases trees with
    | nil => cases h
    | cons t more =>
      simp only [conclude] at h
      split at h
      · rename_i hend
        cases h
        refine ⟨more, s.cursor.current, s.cursor.ahead, h1, ?_⟩
        simpa [Cursor.atEnd] using hend
      · cases h
  | mismatch s => rw [hr] at h; cases h
  | fatal o s => rw [hr] at h; cases h

/-- A reading of the root up to the end of the input makes a successful parse. -/
theorem parseRule_of_reads {p : Parser} {rule : Rule} {tree : Tree} {more : List Tree} {e : Token}
    {rest : List Token} (hb : p.limits.Ample)
    (h : Reads p.limits.maxDepth rule.root [] p.tokens (some (tree :: more, e :: rest)))
    (he : e.terminal = .endOfInput) : (p.parseRule rule).1 = .ok tree := by
  have h1 : (rule.root.matchAt p.limits p.start).outcome? = some (some (tree :: more, e :: rest)) :=
    h.outcome ⟨p.limits, [], []⟩ (s := ⟨p.start, none⟩) hb.allows rfl
  obtain ⟨s, hr, hs⟩ := Reply.eq_matched_of_outcome? h1
  have hend : s.cursor.atEnd = true := by
    simp [Cursor.atEnd, Cursor.current_eq hs, he]
  simp only [parseRule, hr, conclude, hend, if_true]

end Parser

end PlsqlLint
