import PlsqlLint.Proofs.Lossless
import PlsqlLint.Proofs.Simulation

/-!
# Raising the bound on nesting

A parse with a bound on nesting does step by step what a parse with a higher bound does, until it exceeds its own.
No pattern takes that for a mismatch: nothing else is tried, left out or cut short.  So the bound only ever replaces
the result of a parse by the report that the bound was exceeded (`parseRule_bound`).
-/

namespace PlsqlLint

/-- Two parses of the same tokens, of which the second may nest deeper. -/
def Simulation.ofBounds {limits₁ limits₂ : Limits} (hd : limits₁.maxDepth ≤ limits₂.maxDepth)
    (hb₁ : limits₁.Ample) (hb₂ : limits₂.Ample) : Simulation where
  toLikeness := .equality
  limits₁ := limits₁
  limits₂ := limits₂
  state := Eq
  overrun := Eq
  gaveUp o := o.bound = .depth limits₁.maxDepth
  depth_le := hd
  ofRule := by
    rintro s _ xs₁ xs₂ rfl hx r
    rw [List.forall₂_eq_eq_eq] at hx
    rw [hx]
  current := by rintro s _ rfl; rfl
  sees := by rintro s _ rfl p _ ahead _; rfl
  moved := by rintro s _ t _ rfl rfl; rfl
  back := by rintro s _ t _ rfl rfl; rfl
  advance := by rintro s _ rfl; exact .inr rfl
  expecting := by rintro s _ rfl rules e; rfl
  expectingLabel := by rintro s _ a _ rfl rfl rules; rfl
  room := by
    rintro s _ rfl levels wanted rules left₁ left₂ hlevels
    by_cases hw : levels < wanted
    · left
      exact ⟨_, if_pos hw, rfl⟩
    · right
      have hmore : rules.length + (levels + (limits₂.maxDepth - limits₁.maxDepth)) ≤ limits₂.maxDepth := by omega
      rw [Matcher.shortage?_eq_none (by omega) ⟨hb₁, hlevels⟩, Matcher.shortage?_eq_none (by omega) ⟨hb₂, hmore⟩]
      exact .none

/-- Replies that agree lead to the same result, if the first parse has not given up. -/
private theorem Parser.conclude_of_agree {limits₁ limits₂ : Limits} {hd : limits₁.maxDepth ≤ limits₂.maxDepth}
    {hb₁ : limits₁.Ample} {hb₂ : limits₂.Ample} {r₁ r₂ : Reply} (h : (Simulation.ofBounds hd hb₁ hb₂).Agree r₁ r₂) :
    (∃ line column, conclude r₁ = .error (.overrun ⟨.depth limits₁.maxDepth, line, column⟩)) ∨
      conclude r₁ = conclude r₂ := by
  cases h with
  | matched hx hs =>
    obtain rfl : _ = _ := hs
    obtain rfl : _ = _ := List.forall₂_eq_eq_eq ▸ hx
    exact .inr rfl
  | mismatch hs =>
    obtain rfl : _ = _ := hs
    exact .inr rfl
  | fatal ho hs =>
    obtain rfl : _ = _ := ho
    exact .inr rfl
  | lost hl =>
    obtain ⟨⟨bound, line, column⟩, s, rfl, ho⟩ := Horizon.eq_fatal_of_none hl
    obtain rfl : bound = .depth limits₁.maxDepth := ho
    exact .inl ⟨line, column, rfl⟩

/-- With a bound on nesting a parse exceeds this bound, or it comes to the very result that it has with any higher
bound: the same tree, or the same syntax error. -/
theorem parseRule_bound (tokens : List Token) (root : Rule) (limits₁ limits₂ : Limits)
    (hd : limits₁.maxDepth ≤ limits₂.maxDepth) (hb₁ : limits₁.Ample) (hb₂ : limits₂.Ample) :
    (∃ line column, ((Parser.ofTokens tokens limits₁).parseRule root).1 =
      .error (.overrun ⟨.depth limits₁.maxDepth, line, column⟩)) ∨
    ((Parser.ofTokens tokens limits₁).parseRule root).1 = ((Parser.ofTokens tokens limits₂).parseRule root).1 := by
  have h : (Simulation.ofBounds hd hb₁ hb₂).Agree (root.root.matchAt limits₁ (.ofTokens tokens))
      (root.root.matchAt limits₂ (.ofTokens tokens)) := Simulation.matchAt_agree _ root.root rfl
  exact Parser.conclude_of_agree h

/-- Seven rules are nested in a reference with a member.  With a bound of seven it is read as with any higher bound, and
with a bound of six it is not read as something shorter. -/
theorem parseRule_bound_member :
    7 ≤ 512 ∧ (Limits.forDepth 7).Ample ∧ (Limits.forDepth 512).Ample ∧
    ((Parser.ofTokens [.bare .identifier "a", .bare .dot ".", .bare .identifier "b"] (.forDepth 6)).parseRule
        .orExpression).1 = .error (.overrun ⟨.depth 6, 0, 0⟩) ∧
    ((Parser.ofTokens [.bare .identifier "a", .bare .dot ".", .bare .identifier "b"] (.forDepth 7)).parseRule
        .orExpression).1 =
      ((Parser.ofTokens [.bare .identifier "a", .bare .dot ".", .bare .identifier "b"] (.forDepth 512)).parseRule
        .orExpression).1 := by
  have hparse : ((Parser.ofTokens [.bare .identifier "a", .bare .dot ".", .bare .identifier "b"]
      (.forDepth 7)).parseRule .orExpression).1 =
      .ok (.ofRule .memberExpression
        [.ofRule .variableName [.leaf (.bare .identifier "a")] default, .leaf (.bare .dot "."),
          .leaf (.bare .identifier "b")] default) := by cbv
  have hbound := parseRule_bound [.bare .identifier "a", .bare .dot ".", .bare .identifier "b"] .orExpression
    (.forDepth 7) (.forDepth 512) (by decide) (Limits.ample_forDepth 7) (Limits.ample_forDepth 512)
  refine ⟨by decide, Limits.ample_forDepth 7, Limits.ample_forDepth 512, by cbv, hbound.resolve_left ?_⟩
  rintro ⟨line, column, h⟩
  rw [hparse] at h
  cases h

end PlsqlLint
