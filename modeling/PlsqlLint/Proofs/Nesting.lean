import PlsqlLint.Proofs.Attempt
import PlsqlLint.Proofs.FirstToken

/-!
# How deep a parse can nest

No rule calls itself before a token is read, so between two tokens only a few rules are entered.  How many can be seen
from a pattern, once it is known for the rules that it calls (`Pattern.height`); it is never more than sixteen.  The
links behind an operand ask for one level more each time, but each of them reads a token as well.

So sixteen levels for every token that is ahead, on top of the rules that are being matched, are enough for all that
an attempt can lead to (`Attempt.Fits`).
-/

namespace PlsqlLint

/-! ### Levels between two tokens -/

/-- How many levels the body of the rule takes at most before it reads a token. -/
def Rule.height : Rule → Nat
  | .selectColumn | .argument => 7
  | .orExpression => 6
  | .andExpression => 5
  | .concatenationExpression => 4
  | .additiveExpression => 3
  | .multiplicativeExpression | .fileInput => 2
  | .exponentiationExpression | .blockStatement | .assignmentStatement | .callStatement | .loopStatement
  | .whileStatement | .forStatement | .selectStatement | .setClause => 1
  | _ => 0

namespace Pattern

/-- How many levels the pattern takes at most before it reads a token. -/
def height : Pattern → Nat
  | .empty | .take _ _ | .advance | .fail | .reject _ | .left | .closingLabel => 0
  | .room levels => levels
  | .seq a b | .onto a b => if a.width = 0 then max a.height b.height else a.height
  | .orElse a b | .ifNext _ a b => max a.height b.height
  | .many a | .node _ a | .collapse _ a | .only _ _ a | .last a | .chain a _ _ => a.height
  | .within _ a => a.height + 1
  | .call r => r.height + 1

/-- What is matched behind something else takes at most sixteen levels before it reads a token, and links follow only
behind a token. -/
def steady : Pattern → Bool
  | .empty | .take _ _ | .advance | .fail | .reject _ | .room _ | .left | .closingLabel | .call _ => true
  | .seq a b | .onto a b => a.passes && a.steady && b.steady && decide (b.height ≤ 16)
  | .orElse a b | .ifNext _ a b => a.steady && b.steady
  | .many a => a.passes && a.steady
  | .within _ a | .node _ a | .collapse _ a | .only _ _ a | .last a => a.steady
  | .chain a _ link =>
    a.passes && a.steady && link.passes && link.steady && decide (0 < a.width) && decide (link.height ≤ 16)

end Pattern

namespace Rule

private theorem height_body (r : Rule) : r.body.height ≤ r.height := by
  cases r <;> decide

private theorem steady_body (r : Rule) : r.body.steady = true := by
  cases r <;> decide

private theorem height_root (r : Rule) : r.root.height ≤ 16 := by
  cases r <;> decide

private theorem steady_root (r : Rule) : r.root.steady = true := by
  cases r <;> decide

end Rule

namespace Task

/-- The levels that a task takes before it reads a token.  Links ask for as many levels as there are links by then. -/
def height : Task → Nat
  | .pattern p => p.height
  | .links _ _ count => 15 + count

def steady : Task → Bool
  | .pattern p => p.steady
  | .links _ link count => link.passes && link.steady && decide (link.height ≤ 16) && decide (0 < count)

end Task

/-! ### What fits stays so -/

/-- A match of the pattern leaves a stream that is shorter by the tokens that it reads at least. -/
theorem Pattern.run_shortens {n : Nat} {p : Pattern} {env : Surroundings} {s t : ParseState} {xs : List Tree}
    (h : p.run n env s = .matched xs t) (hp : p.passes = true) (hs : Terminated s.cursor.tokens) :
    Terminated t.cursor.tokens ∧ t.cursor.ahead.length + p.width ≤ s.cursor.ahead.length := by
  have hread : Reads n p env.left s.cursor.tokens (some (xs, t.cursor.tokens)) :=
    run_sound n p env s _ (congrArg Reply.outcome? h)
  obtain ⟨w, hw, hwidth⟩ := hread.wide hp hs
  refine ⟨hw.terminated hs, ?_⟩
  have hlength := congrArg List.length hw.split
  rw [List.length_append, Cursor.length_tokens, Cursor.length_tokens] at hlength
  omega

namespace Attempt

/-- Sixteen levels for each token ahead, with those that are taken and those that are taken before the next token, do
not exceed the bound. -/
structure Fits (bound : Nat) (a : Attempt) : Prop where
  terminated : Terminated a.state.cursor.tokens
  steady : a.task.steady = true
  room : a.env.rules.length + 16 * a.state.cursor.ahead.length + a.task.height ≤ bound

variable {bound : Nat} {a b : Attempt}

/-- What an attempt asks for is within the bound. -/
private theorem Fits.wanted (h : a.Fits bound) {wanted : Nat} (hw : a.wanted? = some wanted) :
    a.env.rules.length + wanted ≤ bound := by
  obtain ⟨n, task, env, s⟩ := a
  have hle : wanted ≤ task.height := by
    cases task with
    | pattern p =>
      cases p with
      | within r p => cases hw; exact Nat.le_add_left _ _
      | call r => cases hw; exact Nat.le_add_left _ _
      | room levels => cases hw; exact le_rfl
      | _ => cases hw
    | links ahead link count =>
      simp only [wanted?] at hw
      split at hw
      · cases hw; exact Nat.le_add_left _ _
      · cases hw
  have hroom := h.room
  dsimp only at hroom ⊢
  omega

private theorem Fits.starts (h : a.Fits bound) (hab : a.Starts b) : b.Fits bound := by
  obtain ⟨hterm, hsteady, hroom⟩ := h
  cases hab with
  | seqFirst | ontoFirst =>
    simp only [Task.steady, Pattern.steady, Bool.and_eq_true, decide_eq_true_eq] at hsteady
    refine ⟨hterm, hsteady.1.1.2, ?_⟩
    simp only [Task.height, Pattern.height] at hroom ⊢
    split at hroom <;> omega
  | seqSecond hrun | ontoSecond hrun =>
    simp only [Task.steady, Pattern.steady, Bool.and_eq_true, decide_eq_true_eq] at hsteady
    obtain ⟨⟨⟨hpass, -⟩, hb⟩, hheight⟩ := hsteady
    obtain ⟨hterm', hlength⟩ := Pattern.run_shortens hrun hpass hterm
    refine ⟨hterm', hb, ?_⟩
    -- Either a token has been read, or the second part takes its levels in front of the same token as the first.
    simp only [Task.height, Pattern.height] at hroom ⊢
    split at hroom <;> omega
  | orFirst | nextYes =>
    simp only [Task.steady, Pattern.steady, Bool.and_eq_true] at hsteady
    refine ⟨hterm, hsteady.1, ?_⟩
    simp only [Task.height, Pattern.height] at hroom ⊢
    omega
  | orSecond | nextNo =>
    simp only [Task.steady, Pattern.steady, Bool.and_eq_true] at hsteady
    refine ⟨hterm, hsteady.2, ?_⟩
    simp only [Task.height, Pattern.height, ParseState.backTo] at hroom ⊢
    omega
  | manyOnce =>
    simp only [Task.steady, Pattern.steady, Bool.and_eq_true] at hsteady
    exact ⟨hterm, hsteady.2, hroom⟩
  | manyMore hrun hlt =>
    have hpass := hsteady
    simp only [Task.steady, Pattern.steady, Bool.and_eq_true] at hpass
    refine ⟨(Pattern.run_shortens hrun hpass.1 hterm).1, hsteady, ?_⟩
    dsimp only at hroom ⊢
    omega
  | @within n r p env s _ =>
    refine ⟨hterm, hsteady, ?_⟩
    simp only [Task.height, Pattern.height, List.length_cons] at hroom ⊢
    omega
  | @call n r env s _ =>
    refine ⟨hterm, r.steady_body, ?_⟩
    have hbody := r.height_body
    simp only [Task.height, Pattern.height, List.length_cons] at hroom ⊢
    omega
  | node | collapse | only | last => exact ⟨hterm, hsteady, hroom⟩
  | operand =>
    simp only [Task.steady, Pattern.steady, Bool.and_eq_true] at hsteady
    exact ⟨hterm, hsteady.1.1.1.1.2, hroom⟩
  | links hrun =>
    simp only [Task.steady, Pattern.steady, Bool.and_eq_true, decide_eq_true_eq] at hsteady
    obtain ⟨⟨⟨⟨⟨hpass, -⟩, hlpass⟩, hlink⟩, hwidth⟩, hheight⟩ := hsteady
    obtain ⟨hterm', hlength⟩ := Pattern.run_shortens hrun hpass hterm
    refine ⟨hterm', by simp [Task.steady, hlpass, hlink, hheight], ?_⟩
    simp only [Task.height] at hroom ⊢
    omega
  | link hs hshort =>
    simp only [Task.steady, Bool.and_eq_true, decide_eq_true_eq] at hsteady
    obtain ⟨⟨⟨-, hlink⟩, hheight⟩, hcount⟩ := hsteady
    refine ⟨hterm, hlink, ?_⟩
    simp only [Task.height] at hroom ⊢
    omega
  | linksMore hs hshort hrun hlt =>
    simp only [Task.steady, Bool.and_eq_true, decide_eq_true_eq] at hsteady
    obtain ⟨⟨⟨hlpass, hlink⟩, hheight⟩, hcount⟩ := hsteady
    refine ⟨(Pattern.run_shortens hrun hlpass hterm).1, by simp [Task.steady, hlpass, hlink, hheight], ?_⟩
    simp only [Task.height] at hroom ⊢
    omega

/-- All that an attempt leads to fits if the attempt does. -/
private theorem Fits.leads (h : a.Fits bound) (hab : a.Leads b) : b.Fits bound := by
  induction hab with
  | refl => exact h
  | tail _ hstep ih => exact ih.starts hstep

/-- An attempt that fits its own bound does not run short of levels. -/
theorem Fits.not_runsShort (h : a.Fits bound) (hbound : bound ≤ a.levels + a.env.rules.length)
    (hallows : a.env.limits.Allows a.env.rules a.levels) (o : Overrun) : ¬ a.RunsShort o := by
  rintro ⟨b, hab, wanted, hw, hshort⟩
  obtain ⟨hbalance, hlimits⟩ := hab.balance
  have hle := (h.leads hab).wanted hw
  have hlevels := hallows.le
  have hnone : Matcher.shortage? b.levels wanted b.env b.state = none := by
    refine Matcher.shortage?_eq_none (by omega) ⟨hlimits ▸ hallows.ample, ?_⟩
    rw [hlimits]
    omega
  rw [hnone] at hshort
  cases hshort

end Attempt

/-! ### Whole parses -/

private theorem Cursor.length_ahead_ofTokens (tokens : List Token) :
    (ofTokens tokens).ahead.length ≤ tokens.length := by
  cases tokens with
  | nil => exact le_rfl
  | cons t ts =>
    have hclosing : (closing (ts.getLastD t)).length ≤ 1 := by
      unfold closing
      split <;> simp
    simp only [ofTokens, List.length_append, List.length_cons]
    omega

namespace Parser

/-- The match with which the parse of a whole stream begins. -/
def attempt (p : Parser) (rule : Rule) : Attempt :=
  ⟨p.limits.maxDepth, rule.root, ⟨p.limits, [], []⟩, ⟨p.start, none⟩⟩

private theorem fits_attempt (tokens : List Token) (limits : Limits) (root : Rule) :
    ((ofTokens tokens limits).attempt root).Fits (16 * (tokens.length + 1)) := by
  refine ⟨terminated_ofTokens tokens, root.steady_root, ?_⟩
  have hahead := Cursor.length_ahead_ofTokens tokens
  have hroot := root.height_root
  simp only [attempt, ofTokens, Task.height, List.length_nil]
  omega

/-- A parse within which nothing runs short does not overrun a bound. -/
theorem parseRule_of_not_runsShort {p : Parser} {rule : Rule} (h : ∀ o, ¬ (p.attempt rule).RunsShort o) :
    (∃ tree, (p.parseRule rule).1 = .ok tree) ∨ ∃ e, (p.parseRule rule).1 = .error (.unexpected e) := by
  change (∃ tree, conclude (rule.root.matchAt p.limits p.start) = .ok tree) ∨
    ∃ e, conclude (rule.root.matchAt p.limits p.start) = .error (.unexpected e)
  cases hr : rule.root.matchAt p.limits p.start with
  | fatal o s =>
    have hover : (p.attempt rule).Overruns o := ⟨s, hr⟩
    exact absurd (Attempt.overruns_iff.1 hover) (h o)
  | mismatch s => exact .inr ⟨_, rfl⟩
  | matched xs s =>
    cases xs with
    | nil => exact .inr ⟨_, rfl⟩
    | cons tree more =>
      simp only [conclude]
      split
      · exact .inl ⟨tree, rfl⟩
      · exact .inr ⟨_, rfl⟩

end Parser

/-- Nesting is linear in the number of tokens.  Whatever the bounds are, no request for levels within a parse goes
beyond sixteen levels for each token and sixteen more; so a parse that may nest as deep comes to a tree or to a syntax
error. -/
theorem parseRule_nesting (tokens : List Token) (limits : Limits) (root : Rule) :
    (∀ a wanted, ((Parser.ofTokens tokens limits).attempt root).Leads a → a.wanted? = some wanted →
      a.env.rules.length + wanted ≤ 16 * (tokens.length + 1)) ∧
    (16 * (tokens.length + 1) ≤ limits.maxDepth → limits.Ample →
      (∃ tree, ((Parser.ofTokens tokens limits).parseRule root).1 = .ok tree) ∨
      ∃ e, ((Parser.ofTokens tokens limits).parseRule root).1 = .error (.unexpected e)) := by
  have hfits := Parser.fits_attempt tokens limits root
  constructor
  · intro a wanted hleads hw
    exact (hfits.leads hleads).wanted hw
  · intro hdepth hstack
    apply Parser.parseRule_of_not_runsShort
    exact hfits.not_runsShort hdepth hstack.allows

/-- The second link of a reference asks for two levels, and a bound of sixteen levels for each of the five tokens and
sixteen more is far above that. -/
theorem parseRule_nesting_member :
    (∃ a, ((Parser.ofTokens [.bare .identifier "a", .bare .dot ".", .bare .identifier "b", .bare .dot ".",
        .bare .identifier "c"] (.forDepth 96)).attempt .memberExpression).Leads a ∧ a.wanted? = some 2 ∧
      a.env.rules.length + 2 ≤ 16 * (5 + 1)) ∧
    16 * (5 + 1) ≤ 96 ∧ (Limits.forDepth 96).Ample ∧
    ((∃ tree, ((Parser.ofTokens [.bare .identifier "a", .bare .dot ".", .bare .identifier "b", .bare .dot ".",
        .bare .identifier "c"] (.forDepth 96)).parseRule .memberExpression).1 = .ok tree) ∨
      ∃ e, ((Parser.ofTokens [.bare .identifier "a", .bare .dot ".", .bare .identifier "b", .bare .dot ".",
        .bare .identifier "c"] (.forDepth 96)).parseRule .memberExpression).1 = .error (.unexpected e)) := by
  have hnesting := parseRule_nesting [.bare .identifier "a", .bare .dot ".", .bare .identifier "b", .bare .dot ".",
    .bare .identifier "c"] (.forDepth 96) .memberExpression
  obtain ⟨a, hleads, hwanted⟩ : ∃ a, ((Parser.ofTokens [.bare .identifier "a", .bare .dot ".", .bare .identifier "b",
      .bare .dot ".", .bare .identifier "c"] (.forDepth 96)).attempt .memberExpression).Leads a ∧ a.wanted? = some 2 :=
    ⟨_, .head .only (.head (.links rfl) (.head (.linksMore rfl rfl rfl (by decide)) .refl)), rfl⟩
  exact ⟨⟨a, hleads, hwanted, hnesting.1 a 2 hleads hwanted⟩, by decide, Limits.ample_forDepth 96,
    hnesting.2 (by decide) (Limits.ample_forDepth 96)⟩

end PlsqlLint
