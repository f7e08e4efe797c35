import Mathlib
import PlsqlLint.Proofs.Adequacy

/-!
# Matches within a match

To match a pattern, its parts are matched, one after the other and each at the place and in the surroundings that the
ones before it have left.  An `Attempt` is a match under way, `Attempt.Starts` says which attempts it makes itself, and
`Attempt.Leads` which it makes in all.

Some attempts ask for levels of nesting (`Attempt.wanted?`).  A match overruns a bound if, and only if, it leads to such
a request that is not met (`Attempt.overruns_iff`).
-/

namespace PlsqlLint

/-- A match under way: what is matched, with how many levels left, in which surroundings and where.  For the links
behind an operand, the trees so far are those at hand as `left`. -/
structure Attempt where
  levels : Nat
  task : Task
  env : Surroundings
  state : ParseState

namespace Attempt

/-- The attempts that an attempt makes itself. -/
inductive Starts : Attempt → Attempt → Prop
  | seqFirst {n a b env s} : Starts ⟨n, Pattern.seq a b, env, s⟩ ⟨n, a, env, s⟩
  | seqSecond {n a b env s xs t} (h : Pattern.run n a env s = .matched xs t) :
      Starts ⟨n, Pattern.seq a b, env, s⟩ ⟨n, b, env, t⟩
  | orFirst {n a b env s} : Starts ⟨n, Pattern.orElse a b, env, s⟩ ⟨n, a, env, s⟩
  | orSecond {n a b env s t} (h : Pattern.run n a env s = .mismatch t) :
      Starts ⟨n, Pattern.orElse a b, env, s⟩ ⟨n, b, env, t.backTo s.cursor⟩
  | manyOnce {n a env s} : Starts ⟨n, Pattern.many a, env, s⟩ ⟨n, a, env, s⟩
  | manyMore {n a env s xs t} (h : Pattern.run n a env s = .matched xs t)
      (hlt : t.cursor.ahead.length < s.cursor.ahead.length) :
      Starts ⟨n, Pattern.many a, env, s⟩ ⟨n, Pattern.many a, env, t⟩
  | nextYes {n ahead a b env s} (h : s.cursor.sees ahead = true) :
      Starts ⟨n, Pattern.ifNext ahead a b, env, s⟩ ⟨n, a, env, s⟩
  | nextNo {n ahead a b env s} (h : s.cursor.sees ahead = false) :
      Starts ⟨n, Pattern.ifNext ahead a b, env, s⟩ ⟨n, b, env, s⟩
  | within {n r a env s} (h : Matcher.shortage? (n + 1) 1 env s = none) :
      Starts ⟨n + 1, Pattern.within r a, env, s⟩ ⟨n, a, { env with rules := r :: env.rules }, s⟩
  | call {n r env s} (h : Matcher.shortage? (n + 1) 1 env s = none) :
      Starts ⟨n + 1, Pattern.call r, env, s⟩ ⟨n, r.body, ⟨env.limits, r :: env.rules, []⟩, s⟩
  | node {n r a env s} : Starts ⟨n, Pattern.node r a, env, s⟩ ⟨n, a, env, s⟩
  | collapse {n r a env s} : Starts ⟨n, Pattern.collapse r a, env, s⟩ ⟨n, a, env, s⟩
  | only {n r e a env s} : Starts ⟨n, Pattern.only r e a, env, s⟩ ⟨n, a, env, s⟩
  | last {n a env s} : Starts ⟨n, Pattern.last a, env, s⟩ ⟨n, a, env, s⟩
  | ontoFirst {n a b env s} : Starts ⟨n, Pattern.onto a b, env, s⟩ ⟨n, a, env, s⟩
  | ontoSecond {n a b env s xs t} (h : Pattern.run n a env s = .matched xs t) :
      Starts ⟨n, Pattern.onto a b, env, s⟩ ⟨n, b, { env with left := xs }, t⟩
  | operand {n a ahead link env s} : Starts ⟨n, Pattern.chain a ahead link, env, s⟩ ⟨n, a, env, s⟩
  | links {n a ahead link env s xs t} (h : Pattern.run n a env s = .matched xs t) :
      Starts ⟨n, Pattern.chain a ahead link, env, s⟩ ⟨n, .links ahead link 1, { env with left := xs }, t⟩
  | link {n ahead link count env s} (hs : s.cursor.sees ahead = true)
      (hroom : Matcher.shortage? n count env s = none) :
      Starts ⟨n, .links ahead link count, env, s⟩ ⟨n, link, env, s⟩
  | linksMore {n ahead link count env s xs t} (hs : s.cursor.sees ahead = true)
      (hroom : Matcher.shortage? n count env s = none) (h : Pattern.run n link env s = .matched xs t)
      (hlt : t.cursor.ahead.length < s.cursor.ahead.length) :
      Starts ⟨n, .links ahead link count, env, s⟩ ⟨n, .links ahead link (count + 1), { env with left := xs }, t⟩

/-- The attempts that are made in the course of an attempt, which is one of them. -/
abbrev Leads : Attempt → Attempt → Prop := Relation.ReflTransGen Starts

/-- A level of nesting is either left or taken by a rule, and the bounds stay as they are. -/
theorem Starts.balance {a b : Attempt} (h : a.Starts b) :
    b.levels + b.env.rules.length = a.levels + a.env.rules.length ∧ b.env.limits = a.env.limits := by
  cases h with
  | within hroom | call hroom => exact ⟨by simp only [List.length_cons]; omega, rfl⟩
  | _ => exact ⟨rfl, rfl⟩

theorem Leads.balance {a b : Attempt} (h : a.Leads b) :
    b.levels + b.env.rules.length = a.levels + a.env.rules.length ∧ b.env.limits = a.env.limits := by
  induction h with
  | refl => exact ⟨rfl, rfl⟩
  | tail _ hstep ih => exact ⟨hstep.balance.1.trans ih.1, hstep.balance.2.trans ih.2⟩

/-- How many levels more the attempt asks for, if it asks. -/
def wanted? (a : Attempt) : Option Nat :=
  match a.task with
  | .pattern (.within _ _) | .pattern (.call _) => some 1
  | .pattern (.room levels) => some levels
  | .links ahead _ count => if a.state.cursor.sees ahead then some count else none
  | _ => none

/-- The attempt asks for levels that it is not given. -/
def Short (a : Attempt) (o : Overrun) : Prop :=
  ∃ wanted, a.wanted? = some wanted ∧ Matcher.shortage? a.levels wanted a.env a.state = some o

/-- The attempt leads to one that asks for levels that it is not given. -/
def RunsShort (a : Attempt) (o : Overrun) : Prop := ∃ b, a.Leads b ∧ b.Short o

private theorem Short.runsShort {a : Attempt} {o : Overrun} (h : a.Short o) : a.RunsShort o := ⟨a, .refl, h⟩

private theorem Starts.runsShort {a b : Attempt} {o : Overrun} (h : a.Starts b) (hb : b.RunsShort o) :
    a.RunsShort o := by
  obtain ⟨c, hc, ho⟩ := hb
  exact ⟨c, .head h hc, ho⟩

end Attempt

/-! ### Where an overrun comes from -/

private theorem Reply.andThen_eq_fatal {r : Reply} {next : List Tree → ParseState → Reply} {o : Overrun}
    {t : ParseState} (h : r.andThen next = .fatal o t) :
    r = .fatal o t ∨ ∃ xs u, r = .matched xs u ∧ next xs u = .fatal o t := by
  cases r with
  | matched xs u => exact .inr ⟨xs, u, rfl, h⟩
  | mismatch u => cases h
  | fatal e u => exact .inl h

private theorem Reply.after_eq_fatal {r : Reply} {xs : List Tree} {o : Overrun} {t : ParseState}
    (h : r.after xs = .fatal o t) : r = .fatal o t := by
  cases r with
  | matched ys u => cases h
  | mismatch u => cases h
  | fatal e u => exact h

private theorem Reply.orBackTo_eq_fatal {r : Reply} {c : Cursor} {o : Overrun} {t : ParseState}
    (h : r.orBackTo c = .fatal o t) : ∃ u, r = .fatal o u := by
  cases r with
  | matched ys u => cases h
  | mismatch u => cases h
  | fatal e u => cases h; exact ⟨u, rfl⟩

namespace Matcher

private theorem ifRoom_eq_fatal {levels wanted : Nat} {m : Matcher} {env : Surroundings} {s t : ParseState}
    {o : Overrun} (h : ifRoom levels wanted m env s = .fatal o t) :
    shortage? levels wanted env s = some o ∨ shortage? levels wanted env s = none ∧ m env s = .fatal o t := by
  unfold ifRoom at h
  cases hroom : shortage? levels wanted env s with
  | some e =>
    rw [hroom] at h
    cases h
    exact .inl rfl
  | none =>
    rw [hroom] at h
    exact .inr ⟨rfl, h⟩

private theorem ifRoom_eq_matched {levels wanted : Nat} {m : Matcher} {env : Surroundings} {s t : ParseState}
    {xs : List Tree} (h : ifRoom levels wanted m env s = .matched xs t) :
    shortage? levels wanted env s = none ∧ m env s = .matched xs t := by
  unfold ifRoom at h
  cases hroom : shortage? levels wanted env s with
  | some e =>
    rw [hroom] at h
    cases h
  | none =>
    rw [hroom] at h
    exact ⟨rfl, h⟩

/-- The matcher of a node ends a parse only if its body does. -/
private theorem node_eq_fatal {r : Rule} {m : Matcher} {env : Surroundings} {s t : ParseState} {o : Overrun}
    (h : node r m env s = .fatal o t) : m env s = .fatal o t := by
  rcases Reply.andThen_eq_fatal h with h | ⟨xs, u, _, h⟩
  · exact h
  · cases h

private theorem collapse_eq_fatal {r : Rule} {m : Matcher} {env : Surroundings} {s t : ParseState} {o : Overrun}
    (h : collapse r m env s = .fatal o t) : m env s = .fatal o t := by
  rcases Reply.andThen_eq_fatal h with h | ⟨xs, u, _, h⟩
  · exact h
  · split at h <;> cases h

/-- The surroundings of links say nothing about the trees so far. -/
private theorem links_left (n : Nat) (ahead : Lookahead) (m : Matcher) (env : Surroundings) (l : List Tree)
    (count : Nat) (xs : List Tree) (s : ParseState) :
    links n ahead m { env with left := l } count xs s = links n ahead m env count xs s := by
  induction s using ParseState.ahead_induction generalizing xs count with
  | step s ih =>
  rw [links_eq, links_eq]
  split
  · congr 1
    funext ys t
    split
    · rename_i hlt
      exact ih t hlt _ _
    · rfl
  · rfl

end Matcher

namespace Pattern

/-- An overrun that ends a match comes from a request within it. -/
def Accounts (n : Nat) (p : Pattern) : Prop :=
  ∀ env s o t, p.run n env s = .fatal o t → Attempt.RunsShort ⟨n, p, env, s⟩ o

variable {n : Nat} {a b : Pattern}

private theorem Accounts.many (ha : Accounts n a) : Accounts n (.many a) := by
  intro env s o t h
  rw [run_many] at h
  induction s using ParseState.ahead_induction with
  | step s ih =>
  rw [Matcher.many] at h
  cases hr : a.run n env s with
  | mismatch u => rw [hr] at h; cases h
  | fatal e u =>
    rw [hr] at h
    cases h
    exact Attempt.Starts.manyOnce.runsShort (ha env s _ _ hr)
  | matched xs u =>
    rw [hr] at h
    dsimp only at h
    split at h
    · rename_i hlt
      exact (Attempt.Starts.manyMore hr hlt).runsShort (ih u hlt (Reply.after_eq_fatal h))
    · cases h

private theorem Accounts.links (hb : Accounts n b) {ahead : Lookahead} {count : Nat} {env : Surroundings}
    {s t : ParseState} {o : Overrun} (h : Matcher.links n ahead (b.run n) env count env.left s = .fatal o t) :
    Attempt.RunsShort ⟨n, .links ahead b count, env, s⟩ o := by
  induction s using ParseState.ahead_induction generalizing env count with
  | step s ih =>
  rw [Matcher.links_eq] at h
  split at h
  · rename_i hs
    have hwanted : Attempt.wanted? ⟨n, .links ahead b count, env, s⟩ = some count := if_pos hs
    rcases Reply.andThen_eq_fatal h with hr | ⟨xs, u, hr, hrest⟩
    · rcases Matcher.ifRoom_eq_fatal hr with hshort | ⟨hroom, hlink⟩
      · exact Attempt.Short.runsShort ⟨count, hwanted, hshort⟩
      · exact (Attempt.Starts.link hs hroom).runsShort (hb env s _ _ hlink)
    · obtain ⟨hroom, hlink⟩ := Matcher.ifRoom_eq_matched hr
      split at hrest
      · rename_i hlt
        refine (Attempt.Starts.linksMore hs hroom hlink hlt).runsShort (ih u hlt ?_)
        rw [Matcher.links_left]
        exact hrest
      · cases hrest
  · cases h

private theorem Accounts.within {r : Rule} (hbelow : ∀ k, n = k + 1 → Accounts k a) {env : Surroundings}
    {s t : ParseState} {o : Overrun} (h : Matcher.within n r (deeper n a) env s = .fatal o t) :
    Matcher.shortage? n 1 env s = some o ∨
      ∃ k, n = k + 1 ∧ Matcher.shortage? n 1 env s = none ∧
        Attempt.RunsShort ⟨k, a, { env with rules := r :: env.rules }, s⟩ o := by
  rcases Matcher.ifRoom_eq_fatal h with hshort | ⟨hroom, h⟩
  · exact .inl hshort
  · obtain ⟨k, rfl⟩ : ∃ k, n = k + 1 := ⟨n - 1, by have := Matcher.le_of_shortage?_eq_none hroom; omega⟩
    obtain ⟨u, hu⟩ := Reply.orBackTo_eq_fatal h
    exact .inr ⟨k, rfl, hroom, hbelow k rfl _ _ _ _ hu⟩

/-- Every overrun comes from a request for levels. -/
theorem accounts (n : Nat) (p : Pattern) : Accounts n p := by
  induction n using Nat.strongRecOn generalizing p with
  | ind n ihn =>
  have hdeep : ∀ q k, n = k + 1 → Accounts k q := by
    intro q k hk
    exact ihn k (by omega) q
  induction p with
  | empty | fail | left =>
    intro env s o t h
    rw [run_eq_eval] at h
    cases h
  | advance | reject e =>
    intro env s o t h
    rw [run_eq_eval] at h
    cases h
  | take k e =>
    intro env s o t h
    rw [run_eq_eval] at h
    simp only [eval, Matcher.take] at h
    split at h <;> cases h
  | room wanted =>
    intro env s o t h
    rw [run_eq_eval] at h
    rcases Matcher.ifRoom_eq_fatal h with hshort | ⟨_, h⟩
    · exact Attempt.Short.runsShort ⟨wanted, rfl, hshort⟩
    · cases h
  | seq a b iha ihb =>
    intro env s o t h
    rw [run_seq] at h
    rcases Reply.andThen_eq_fatal h with ha | ⟨xs, u, ha, hb⟩
    · exact Attempt.Starts.seqFirst.runsShort (iha env s o t ha)
    · exact (Attempt.Starts.seqSecond ha).runsShort (ihb env u o t (Reply.after_eq_fatal hb))
  | orElse a b iha ihb =>
    intro env s o t h
    rw [run_orElse, Matcher.orElse] at h
    cases ha : a.run n env s with
    | matched xs u => rw [ha] at h; cases h
    | mismatch u =>
      rw [ha] at h
      exact (Attempt.Starts.orSecond ha).runsShort (ihb env _ o t h)
    | fatal e u =>
      rw [ha] at h
      cases h
      exact Attempt.Starts.orFirst.runsShort (iha env s _ _ ha)
  | many a iha => exact iha.many
  | ifNext ahead a b iha ihb =>
    intro env s o t h
    rw [run_ifNext, ← Cursor.sees_eq_holds] at h
    split at h
    · rename_i hs
      exact (Attempt.Starts.nextYes hs).runsShort (iha env s o t h)
    · rename_i hs
      exact (Attempt.Starts.nextNo (by simpa using hs)).runsShort (ihb env s o t h)
  | within r a _ =>
    intro env s o t h
    rw [run_within] at h
    rcases Accounts.within (hdeep a) h with hshort | ⟨k, rfl, hroom, hbelow⟩
    · exact Attempt.Short.runsShort ⟨1, rfl, hshort⟩
    · exact (Attempt.Starts.within hroom).runsShort hbelow
  | call r =>
    intro env s o t h
    rw [run_call] at h
    have hwithin : Matcher.within n r (deeper n r.body) { env with left := [] } s = .fatal o t := by
      unfold Matcher.call at h
      split at h
      · exact Matcher.collapse_eq_fatal h
      · exact Matcher.node_eq_fatal h
    rcases Accounts.within (hdeep r.body) hwithin with hshort | ⟨k, rfl, hroom, hbelow⟩
    · exact Attempt.Short.runsShort ⟨1, rfl, hshort⟩
    · have hstart : Attempt.Starts ⟨k + 1, Pattern.call r, env, s⟩ ⟨k, r.body, ⟨env.limits, r :: env.rules, []⟩, s⟩ :=
        .call hroom
      exact hstart.runsShort hbelow
  | node r a iha =>
    intro env s o t h
    rw [run_node] at h
    exact Attempt.Starts.node.runsShort (iha env s o t (Matcher.node_eq_fatal h))
  | collapse r a iha =>
    intro env s o t h
    rw [run_collapse] at h
    exact Attempt.Starts.collapse.runsShort (iha env s o t (Matcher.collapse_eq_fatal h))
  | only r e a iha =>
    intro env s o t h
    rw [run_only] at h
    rcases Reply.andThen_eq_fatal h with h | ⟨xs, u, _, h⟩
    · exact Attempt.Starts.only.runsShort (iha env s o t h)
    · split at h <;> cases h
  | last a iha =>
    intro env s o t h
    rw [run_last] at h
    rcases Reply.andThen_eq_fatal h with h | ⟨xs, u, _, h⟩
    · exact Attempt.Starts.last.runsShort (iha env s o t h)
    · cases h
  | onto a b iha ihb =>
    intro env s o t h
    rw [run_onto] at h
    rcases Reply.andThen_eq_fatal h with ha | ⟨xs, u, ha, hb⟩
    · exact Attempt.Starts.ontoFirst.runsShort (iha env s o t ha)
    · exact (Attempt.Starts.ontoSecond ha).runsShort (ihb _ u o t hb)
  | chain a ahead b iha ihb =>
    intro env s o t h
    rw [run_chain] at h
    rcases Reply.andThen_eq_fatal h with ha | ⟨xs, u, ha, hb⟩
    · exact Attempt.Starts.operand.runsShort (iha env s o t ha)
    · refine (Attempt.Starts.links ha).runsShort (ihb.links (t := t) ?_)
      rw [Matcher.links_left]
      exact hb
  | closingLabel =>
    intro env s o t h
    rw [run_eq_eval] at h
    simp only [eval, Matcher.closingLabel] at h
    split at h
    · split at h
      · split at h <;> cases h
      · cases h
    · cases h

end Pattern

/-! ### Where a request leads -/

namespace Attempt

/-- What the attempt comes to. -/
def reply (a : Attempt) : Reply :=
  match a.task with
  | .pattern p => p.run a.levels a.env a.state
  | .links ahead link count => Matcher.links a.levels ahead (link.run a.levels) a.env count a.env.left a.state

/-- The attempt ends with an overrun. -/
def Overruns (a : Attempt) (o : Overrun) : Prop := ∃ t, a.reply = .fatal o t

private theorem Overruns.runsShort {a : Attempt} {o : Overrun} (h : a.Overruns o) : a.RunsShort o := by
  obtain ⟨n, task, env, s⟩ := a
  obtain ⟨t, ht⟩ := h
  cases task with
  | pattern p => exact Pattern.accounts n p env s o t ht
  | links ahead link count => exact (Pattern.accounts n link).links ht

private theorem Short.overruns {a : Attempt} {o : Overrun} (h : a.Short o) : a.Overruns o := by
  obtain ⟨n, task, env, s⟩ := a
  obtain ⟨wanted, hw, hshort⟩ := h
  cases task with
  | pattern p =>
    cases p with
    | within r p =>
      cases hw
      exact ⟨s, by simp only [reply, Pattern.run_within, Matcher.within, Matcher.ifRoom, hshort]⟩
    | call r =>
      cases hw
      have hwithin : Matcher.within n r (Pattern.deeper n r.body) { env with left := [] } s = .fatal o s := by
        unfold Matcher.within Matcher.ifRoom
        rw [show Matcher.shortage? n 1 { env with left := [] } s = some o from hshort]
      refine ⟨s, ?_⟩
      simp only [reply, Pattern.run_call, Matcher.call]
      split
      · simp only [Matcher.collapse, hwithin, Reply.andThen]
      · simp only [Matcher.node, hwithin, Reply.andThen]
    | room levels =>
      cases hw
      exact ⟨s, by simp only [reply, Pattern.run_eq_eval, Pattern.eval, Matcher.ifRoom, hshort]⟩
    | _ => cases hw
  | links ahead link count =>
    simp only [wanted?] at hw
    split at hw
    · rename_i hs
      cases hw
      refine ⟨s, ?_⟩
      simp only [reply]
      rw [Matcher.links_eq, if_pos hs]
      simp only [Matcher.ifRoom, hshort, Reply.andThen]
    · cases hw

/-- An overrun within an attempt ends it. -/
theorem Starts.overruns {a b : Attempt} {o : Overrun} (h : a.Starts b) (hb : b.Overruns o) : a.Overruns o := by
  obtain ⟨t, ht⟩ := hb
  cases h with
  | seqFirst => exact ⟨t, by simp only [reply, Pattern.run_seq, Matcher.seq] at ht ⊢; rw [ht, Reply.andThen]⟩
  | seqSecond h =>
    simp only [reply] at ht
    exact ⟨t, by simp only [reply, Pattern.run_seq, Matcher.seq, h, Reply.andThen, ht, Reply.after]⟩
  | orFirst =>
    simp only [reply] at ht
    exact ⟨t, by simp only [reply, Pattern.run_orElse, Matcher.orElse, ht]⟩
  | orSecond h =>
    simp only [reply] at ht
    exact ⟨t, by simp only [reply, Pattern.run_orElse, Matcher.orElse, h, ht]⟩
  | manyOnce =>
    simp only [reply] at ht
    refine ⟨t, ?_⟩
    simp only [reply, Pattern.run_many]
    rw [Matcher.many, ht]
  | manyMore h hlt =>
    simp only [reply, Pattern.run_many] at ht
    refine ⟨t, ?_⟩
    simp only [reply, Pattern.run_many]
    rw [Matcher.many, h]
    simp only [hlt, if_true, ht, Reply.after]
  | nextYes hs =>
    refine ⟨t, ?_⟩
    simp only [reply, Pattern.run_ifNext, ← Cursor.sees_eq_holds, hs, if_true]
    exact ht
  | nextNo hs =>
    refine ⟨t, ?_⟩
    simp only [reply, Pattern.run_ifNext, ← Cursor.sees_eq_holds, hs, Bool.false_eq_true, if_false]
    exact ht
  | @within n r p env s hroom =>
    simp only [reply] at ht
    refine ⟨t.backTo s.cursor, ?_⟩
    simp only [reply, Pattern.run_within, Matcher.within, Matcher.ifRoom, hroom, Pattern.deeper, ht, Reply.orBackTo]
  | @call n r env s hroom =>
    simp only [reply] at ht
    have hwithin : Matcher.within (n + 1) r (r.body.run n) { env with left := [] } s =
        .fatal o (t.backTo s.cursor) := by
      unfold Matcher.within Matcher.ifRoom
      rw [show Matcher.shortage? (n + 1) 1 { env with left := [] } s = none from hroom]
      simp only [ht, Reply.orBackTo]
    refine ⟨t.backTo s.cursor, ?_⟩
    simp only [reply, Pattern.run_call, Matcher.call, Pattern.deeper]
    split
    · simp only [Matcher.collapse, hwithin, Reply.andThen]
    · simp only [Matcher.node, hwithin, Reply.andThen]
  | node =>
    simp only [reply] at ht
    exact ⟨t, by simp only [reply, Pattern.run_node, Matcher.node, ht, Reply.andThen]⟩
  | collapse =>
    simp only [reply] at ht
    exact ⟨t, by simp only [reply, Pattern.run_collapse, Matcher.collapse, ht, Reply.andThen]⟩
  | only =>
    simp only [reply] at ht
    exact ⟨t, by simp only [reply, Pattern.run_only, Matcher.only, ht, Reply.andThen]⟩
  | last =>
    simp only [reply] at ht
    exact ⟨t, by simp only [reply, Pattern.run_last, Matcher.last, ht, Reply.andThen]⟩
  | ontoFirst =>
    simp only [reply] at ht
    exact ⟨t, by simp only [reply, Pattern.run_onto, Matcher.onto, ht, Reply.andThen]⟩
  | ontoSecond h =>
    simp only [reply] at ht
    exact ⟨t, by simp only [reply, Pattern.run_onto, Matcher.onto, h, Reply.andThen, ht]⟩
  | operand =>
    simp only [reply] at ht
    exact ⟨t, by simp only [reply, Pattern.run_chain, Matcher.chain, ht, Reply.andThen]⟩
  | links h =>
    simp only [reply] at ht
    rw [Matcher.links_left] at ht
    exact ⟨t, by simp only [reply, Pattern.run_chain, Matcher.chain, h, Reply.andThen, ht]⟩
  | link hs hroom =>
    simp only [reply] at ht
    refine ⟨t, ?_⟩
    simp only [reply]
    rw [Matcher.links_eq, if_pos hs]
    simp only [Matcher.ifRoom, hroom, ht, Reply.andThen]
  | linksMore hs hroom h hlt =>
    simp only [reply] at ht
    rw [Matcher.links_left] at ht
    refine ⟨t, ?_⟩
    simp only [reply]
    rw [Matcher.links_eq, if_pos hs]
    simp only [Matcher.ifRoom, hroom, h, Reply.andThen, hlt, if_true, ht]

/-- An attempt ends with an overrun exactly if it leads to a request that is not met. -/
theorem overruns_iff {a : Attempt} {o : Overrun} : a.Overruns o ↔ a.RunsShort o := by
  constructor
  · exact Overruns.runsShort
  · rintro ⟨b, hab, hshort⟩
    induction hab using Relation.ReflTransGen.head_induction_on with
    | refl => exact hshort.overruns
    | head hstep _ ih => exact hstep.overruns ih

end Attempt

end PlsqlLint
