import Mathlib
import PlsqlLint.Proofs.Adequacy

/-!
# Two parses side by side

Two parses of one rule keep step if every primitive of matching does: looking at the current token, passing it, noting
an expectation, going back, building a node, and asking for room.  A `Simulation` says when two states and two trees
correspond, and that these primitives keep it so; then whole patterns keep step (`Simulation.run_respects`).

Two things end the comparison.  The second parse may have more levels of nesting than the first, so the first may give
up where the second goes on.  And the first may get out of sight, where the streams need not agree any longer: it is
adrift then, and a `Horizon` says why it stays so.
-/

namespace PlsqlLint

/-! ### The parts of a pattern -/

namespace Pattern

/-- What a pattern is made of. -/
def parts : Pattern → List Pattern
  | .empty | .take _ _ | .advance | .fail | .reject _ | .room _ | .left | .closingLabel => []
  | .seq a b | .orElse a b | .ifNext _ a b | .onto a b | .chain a _ b => [a, b]
  | .many a | .within _ a | .node _ a | .collapse _ a | .only _ _ a | .last a => [a]
  | .call r => [r.body]

/-- What is matched behind a match of another part. -/
def behind : Pattern → List Pattern
  | .seq _ b | .onto _ b | .chain _ _ b => [b]
  | .many a => [.many a]
  | _ => []

/-- What a pattern looks for before it chooses one of its parts. -/
def lookaheads : Pattern → List Lookahead
  | .ifNext ahead _ _ | .chain _ ahead _ => [ahead]
  | _ => []

end Pattern

/-! ### Parses that get out of sight -/

/-- The reply leaves the parse adrift: a match in the state that it comes to, a mismatch wherever the parse goes back
to. -/
def Reply.Adrift (adrift : ParseState → Prop) (gaveUp : Overrun → Prop) : Reply → Prop
  | .matched _ s => adrift s
  | .mismatch s => ∀ c, adrift (s.backTo c)
  | .fatal o _ => gaveUp o

/-- When a parse is out of sight, and why it stays so. -/
structure Horizon (limits : Limits) (gaveUp : Overrun → Prop) where
  /-- The patterns that can be compared. -/
  scope : Pattern → Prop
  /-- The states that are out of sight. -/
  adrift : ParseState → Prop
  scope_part : ∀ {p q}, scope p → q ∈ p.parts → scope q
  gaveUp_of_adrift : ∀ {s}, adrift s → ∀ o, gaveUp o
  expecting : ∀ {s}, adrift s → ∀ rules e c, adrift ((s.expecting rules e).backTo c)
  /-- What is matched behind another part leaves the parse adrift. -/
  drifts : ∀ {p q n rules left s}, scope p → q ∈ p.behind → adrift s →
    (q.run n ⟨limits, rules, left⟩ s).Adrift adrift gaveUp
  /-- Where going back does not help, nothing does. -/
  stays : ∀ {p : Pattern} {n rules left s}, (∀ c, adrift (s.backTo c)) →
    (p.run n ⟨limits, rules, left⟩ s).Adrift adrift gaveUp

namespace Horizon

/-- Nothing gets out of sight. -/
def none (limits : Limits) (gaveUp : Overrun → Prop) : Horizon limits gaveUp where
  scope _ := True
  adrift _ := False
  scope_part _ _ := trivial
  gaveUp_of_adrift h := h.elim
  expecting h := h.elim
  drifts _ _ h := h.elim
  stays {_ _ _ _ s} h := (h s.cursor).elim

/-- Where nothing gets out of sight, a parse is adrift only if it has given up. -/
theorem eq_fatal_of_none {limits : Limits} {gaveUp : Overrun → Prop} {r : Reply}
    (h : r.Adrift (none limits gaveUp).adrift gaveUp) : ∃ o s, r = .fatal o s ∧ gaveUp o := by
  cases r with
  | matched xs s => exact h.elim
  | mismatch s => exact (h s.cursor).elim
  | fatal o s => exact ⟨o, s, rfl, h⟩

end Horizon

/-! ### Two parses -/

/-- When tokens and trees of two parses correspond: patterns do not tell them apart. -/
structure Likeness where
  token : Token → Token → Prop
  tree : Tree → Tree → Prop
  accepts : ∀ {a₁ a₂}, token a₁ a₂ → ∀ k : TokenClass, k.accepts a₁ = k.accepts a₂
  sameText : ∀ {a₁ a₂ b₁ b₂}, token a₁ a₂ → token b₁ b₂ → a₁.sameText b₁ = a₂.sameText b₂
  leaf : ∀ {a₁ a₂}, token a₁ a₂ → tree (.leaf a₁) (.leaf a₂)
  symbol : ∀ {x₁ x₂}, tree x₁ x₂ → ∀ r : Rule, x₁.is (.rule r) = x₂.is (.rule r)
  label : ∀ {xs₁ xs₂}, List.Forall₂ tree xs₁ xs₂ →
    Option.Rel token (Matcher.labelName? xs₁) (Matcher.labelName? xs₂)

/-- Only the same tokens and the same trees correspond. -/
abbrev Likeness.equality : Likeness where
  token := Eq
  tree := Eq
  accepts := by rintro a _ rfl k; rfl
  sameText := by rintro a _ b _ rfl rfl; rfl
  leaf := by rintro a _ rfl; rfl
  symbol := by rintro x _ rfl r; rfl
  label := by
    intro xs₁ xs₂ hx
    rw [List.forall₂_eq_eq_eq] at hx
    rw [hx]
    cases Matcher.labelName? xs₂ with
    | none => exact .none
    | some name => exact .some rfl

/-- How the tokens, trees and states of two parses correspond, and why they go on to do so. -/
structure Simulation extends Likeness where
  limits₁ : Limits
  limits₂ : Limits
  state : ParseState → ParseState → Prop
  overrun : Overrun → Overrun → Prop
  /-- The overruns by which the first parse gives up. -/
  gaveUp : Overrun → Prop
  /-- Where the first parse gets out of sight. -/
  horizon : Horizon limits₁ gaveUp := .none limits₁ gaveUp
  depth_le : limits₁.maxDepth ≤ limits₂.maxDepth
  ofRule : ∀ {s₁ s₂ xs₁ xs₂}, state s₁ s₂ → List.Forall₂ tree xs₁ xs₂ → ∀ r : Rule,
    tree (.ofRule r xs₁ s₁.cursor.current.span.start) (.ofRule r xs₂ s₂.cursor.current.span.start)
  -- looking at states and going on from them
  current : ∀ {s₁ s₂}, state s₁ s₂ → token s₁.cursor.current s₂.cursor.current
  sees : ∀ {s₁ s₂}, state s₁ s₂ → ∀ {p}, horizon.scope p → ∀ ahead ∈ p.lookaheads,
    s₁.cursor.sees ahead = s₂.cursor.sees ahead
  /-- Both have read something in between, or neither has. -/
  moved : ∀ {s₁ s₂ t₁ t₂}, state s₁ s₂ → state t₁ t₂ →
    (t₁.cursor.ahead.length < s₁.cursor.ahead.length ↔ t₂.cursor.ahead.length < s₂.cursor.ahead.length)
  back : ∀ {s₁ s₂ t₁ t₂}, state s₁ s₂ → state t₁ t₂ → state (t₁.backTo s₁.cursor) (t₂.backTo s₂.cursor)
  advance : ∀ {s₁ s₂}, state s₁ s₂ → horizon.adrift (s₁.backTo s₁.cursor.advance) ∨
    state (s₁.backTo s₁.cursor.advance) (s₂.backTo s₂.cursor.advance)
  expecting : ∀ {s₁ s₂}, state s₁ s₂ → ∀ rules e, state (s₁.expecting rules e) (s₂.expecting rules e)
  expectingLabel : ∀ {s₁ s₂ a₁ a₂}, state s₁ s₂ → token a₁ a₂ → ∀ rules,
    state (s₁.expecting rules ("label " ++ a₁.literal)) (s₂.expecting rules ("label " ++ a₂.literal))
  room : ∀ {s₁ s₂}, state s₁ s₂ → ∀ levels wanted rules left₁ left₂, rules.length + levels ≤ limits₁.maxDepth →
    (∃ o, Matcher.shortage? levels wanted ⟨limits₁, rules, left₁⟩ s₁ = some o ∧ gaveUp o) ∨
    Option.Rel overrun (Matcher.shortage? levels wanted ⟨limits₁, rules, left₁⟩ s₁)
      (Matcher.shortage? (levels + (limits₂.maxDepth - limits₁.maxDepth)) wanted ⟨limits₂, rules, left₂⟩ s₂)

namespace Simulation

variable (S : Simulation)

/-- How many levels more the second parse has. -/
def extra : Nat := S.limits₂.maxDepth - S.limits₁.maxDepth

/-- The reply of the first parse is not compared: it has given up, or it is adrift. -/
abbrev Lost (r : Reply) : Prop := r.Adrift S.horizon.adrift S.gaveUp

/-- The replies keep step, or that of the first parse is lost. -/
inductive Agree : Reply → Reply → Prop
  | matched {xs₁ xs₂ s₁ s₂} (hx : List.Forall₂ S.tree xs₁ xs₂) (hs : S.state s₁ s₂) :
      Agree (.matched xs₁ s₁) (.matched xs₂ s₂)
  | mismatch {s₁ s₂} (hs : S.state s₁ s₂) : Agree (.mismatch s₁) (.mismatch s₂)
  | fatal {o₁ o₂ s₁ s₂} (ho : S.overrun o₁ o₂) (hs : S.state s₁ s₂) : Agree (.fatal o₁ s₁) (.fatal o₂ s₂)
  | lost {r₁ r₂} (h : S.Lost r₁) : Agree r₁ r₂

/-- The matchers keep step from corresponding states on, where the first parse has `n` levels left. -/
def Respects (n : Nat) (m₁ m₂ : Matcher) : Prop :=
  ∀ ⦃rules left₁ left₂ s₁ s₂⦄, rules.length + n ≤ S.limits₁.maxDepth → List.Forall₂ S.tree left₁ left₂ →
    S.state s₁ s₂ → S.Agree (m₁ ⟨S.limits₁, rules, left₁⟩ s₁) (m₂ ⟨S.limits₂, rules, left₂⟩ s₂)

/-- The matcher of the first parse leaves it adrift. -/
def Drifts (m : Matcher) : Prop := ∀ ⦃rules left s⦄, S.horizon.adrift s → S.Lost (m ⟨S.limits₁, rules, left⟩ s)

variable {S}

/-! ### Going on behind a reply -/

namespace Lost

variable {r : Reply}

private theorem andThen (h : S.Lost r) {next : List Tree → ParseState → Reply}
    (hn : ∀ {xs s}, S.horizon.adrift s → S.Lost (next xs s)) : S.Lost (r.andThen next) := by
  cases r with
  | matched xs s => exact hn h
  | mismatch s => exact h
  | fatal o s => exact h

private theorem after (h : S.Lost r) (xs : List Tree) : S.Lost (r.after xs) := by
  cases r with
  | matched ys s => exact h
  | mismatch s => exact h
  | fatal o s => exact h

private theorem orBackTo (h : S.Lost r) (c : Cursor) : S.Lost (r.orBackTo c) := by
  cases r with
  | matched ys s => exact h
  | mismatch s => exact h
  | fatal o s => exact h

private theorem ifRoom {m : Matcher} (hm : S.Drifts m) (n wanted : Nat) : S.Drifts (Matcher.ifRoom n wanted m) := by
  intro rules left s hs
  unfold Matcher.ifRoom
  split
  · exact S.horizon.gaveUp_of_adrift hs _
  · exact hm hs

private theorem links {m : Matcher} (hm : S.Drifts m) {n : Nat} {ahead : Lookahead} {rules : List Rule}
    {left xs : List Tree} {count : Nat} {s : ParseState} (hs : S.horizon.adrift s) :
    S.Lost (Matcher.links n ahead m ⟨S.limits₁, rules, left⟩ count xs s) := by
  induction s using ParseState.ahead_induction generalizing xs count with
  | step s ih =>
  rw [Matcher.links_eq]
  split
  · apply andThen (ifRoom hm n count hs)
    intro ys t ht
    split
    · rename_i hlt
      exact ih t hlt ht
    · exact ht
  · exact hs

end Lost

namespace Agree

variable {r₁ r₂ : Reply}

private theorem andThen (h : S.Agree r₁ r₂) {next₁ next₂ : List Tree → ParseState → Reply}
    (hn : ∀ {xs₁ xs₂ s₁ s₂}, List.Forall₂ S.tree xs₁ xs₂ → S.state s₁ s₂ → S.Agree (next₁ xs₁ s₁) (next₂ xs₂ s₂))
    (hl : ∀ {xs s}, S.horizon.adrift s → S.Lost (next₁ xs s)) : S.Agree (r₁.andThen next₁) (r₂.andThen next₂) := by
  cases h with
  | matched hx hs => exact hn hx hs
  | mismatch hs => exact .mismatch hs
  | fatal ho hs => exact .fatal ho hs
  | lost h => exact .lost (h.andThen hl)

private theorem after (h : S.Agree r₁ r₂) {xs₁ xs₂ : List Tree} (hx : List.Forall₂ S.tree xs₁ xs₂) :
    S.Agree (r₁.after xs₁) (r₂.after xs₂) := by
  cases h with
  | matched hy hs => exact .matched (List.rel_append hx hy) hs
  | mismatch hs => exact .mismatch hs
  | fatal ho hs => exact .fatal ho hs
  | lost h => exact .lost (h.after xs₁)

private theorem orBackTo (h : S.Agree r₁ r₂) {s₁ s₂ : ParseState} (hs : S.state s₁ s₂) :
    S.Agree (r₁.orBackTo s₁.cursor) (r₂.orBackTo s₂.cursor) := by
  cases h with
  | matched hx ht => exact .matched hx ht
  | mismatch ht => exact .mismatch (S.back hs ht)
  | fatal ho ht => exact .fatal ho (S.back hs ht)
  | lost h => exact .lost (h.orBackTo s₁.cursor)

end Agree

/-! ### One matcher after the other -/

namespace Respects

variable {ma₁ ma₂ mb₁ mb₂ : Matcher} {n : Nat}

private theorem advance : S.Respects n Matcher.advance Matcher.advance := by
  intro rules left₁ left₂ s₁ s₂ _ _ hs
  rcases S.advance hs with hd | ht
  · exact .lost hd
  · exact .matched (.cons (S.leaf (S.current hs)) .nil) ht

private theorem reject (e : String) : S.Respects n (Matcher.reject e) (Matcher.reject e) :=
  fun _ _ _ _ _ _ _ hs => .mismatch (S.expecting hs _ e)

private theorem take (k : TokenClass) (e : String) : S.Respects n (Matcher.take k e) (Matcher.take k e) := by
  intro rules left₁ left₂ s₁ s₂ hn hl hs
  unfold Matcher.take
  rw [S.accepts (S.current hs) k]
  split
  · exact advance hn hl hs
  · exact reject e hn hl hs

private theorem seq (ha : S.Respects n ma₁ ma₂) (hb : S.Respects n mb₁ mb₂) (hd : S.Drifts mb₁) :
    S.Respects n (Matcher.seq ma₁ mb₁) (Matcher.seq ma₂ mb₂) := by
  intro rules left₁ left₂ s₁ s₂ hn hl hs
  apply (ha hn hl hs).andThen
  · intro xs₁ xs₂ t₁ t₂ hx ht
    exact (hb hn hl ht).after hx
  · intro xs s hs
    exact (hd hs).after xs

private theorem orElse (ha : S.Respects n ma₁ ma₂) (hb : S.Respects n mb₁ mb₂)
    (hd : ∀ ⦃rules left s⦄, (∀ c, S.horizon.adrift (s.backTo c)) → S.Lost (mb₁ ⟨S.limits₁, rules, left⟩ s)) :
    S.Respects n (Matcher.orElse ma₁ mb₁) (Matcher.orElse ma₂ mb₂) := by
  intro rules left₁ left₂ s₁ s₂ hn hl hs
  have h : S.Agree (ma₁ ⟨S.limits₁, rules, left₁⟩ s₁) (ma₂ ⟨S.limits₂, rules, left₂⟩ s₂) := ha hn hl hs
  unfold Matcher.orElse
  generalize ma₁ ⟨S.limits₁, rules, left₁⟩ s₁ = r₁, ma₂ ⟨S.limits₂, rules, left₂⟩ s₂ = r₂ at h
  cases h with
  | matched hx ht => exact .matched hx ht
  | mismatch ht => exact hb hn hl (S.back hs ht)
  | fatal ho ht => exact .fatal ho ht
  | lost h =>
    cases r₁ with
    | matched xs t => exact .lost h
    | mismatch t => exact .lost (hd h)
    | fatal o t => exact .lost h

private theorem many (ha : S.Respects n ma₁ ma₂) (hd : S.Drifts (Matcher.many ma₁)) :
    S.Respects n (Matcher.many ma₁) (Matcher.many ma₂) := by
  intro rules left₁ left₂ s₁ s₂ hn hl hs
  -- the first parse repeats as long as it reads something, and the second reads as much
  induction s₁ using ParseState.ahead_induction generalizing s₂ with
  | step s₁ ih =>
  have h : S.Agree (ma₁ ⟨S.limits₁, rules, left₁⟩ s₁) (ma₂ ⟨S.limits₂, rules, left₂⟩ s₂) := ha hn hl hs
  rw [Matcher.many, Matcher.many.eq_def ma₂]
  generalize ma₁ ⟨S.limits₁, rules, left₁⟩ s₁ = r₁, ma₂ ⟨S.limits₂, rules, left₂⟩ s₂ = r₂ at h
  cases h with
  | @matched xs₁ xs₂ t₁ t₂ hx ht =>
    dsimp only
    simp only [← S.moved hs ht]
    split
    · rename_i hlt
      exact (ih t₁ hlt ht).after hx
    · exact .matched hx ht
  | mismatch ht => exact .matched .nil (S.back hs ht)
  | fatal ho ht => exact .fatal ho ht
  | lost h =>
    refine .lost ?_
    cases r₁ with
    | matched xs t =>
      dsimp only
      split
      · exact Lost.after (hd h) xs
      · exact h
    | mismatch t => exact h s₁.cursor
    | fatal o t => exact h

private theorem ifRoom (wanted : Nat) (ha : wanted ≤ n → S.Respects n ma₁ ma₂) :
    S.Respects n (Matcher.ifRoom n wanted ma₁) (Matcher.ifRoom (n + S.extra) wanted ma₂) := by
  intro rules left₁ left₂ s₁ s₂ hn hl hs
  unfold Matcher.ifRoom
  rcases S.room hs n wanted rules left₁ left₂ hn with ⟨o, hshort, ho⟩ | hrel
  · rw [hshort]
    exact .lost ho
  · generalize h₁ : Matcher.shortage? n wanted ⟨S.limits₁, rules, left₁⟩ s₁ = short₁,
      h₂ : Matcher.shortage? (n + S.extra) wanted ⟨S.limits₂, rules, left₂⟩ s₂ = short₂
    rw [h₁, ← extra, h₂] at hrel
    cases hrel with
    | some ho => exact .fatal ho hs
    | none => exact ha (Matcher.le_of_shortage?_eq_none h₁) hn hl hs

private theorem within (r : Rule) (ha : ∀ k, n = k + 1 → S.Respects k ma₁ ma₂) :
    S.Respects n (Matcher.within n r ma₁) (Matcher.within (n + S.extra) r ma₂) := by
  refine ifRoom 1 ?_
  intro hw rules left₁ left₂ s₁ s₂ hn hl hs
  obtain ⟨k, rfl⟩ : ∃ k, n = k + 1 := ⟨n - 1, by omega⟩
  have hk : (r :: rules).length + k ≤ S.limits₁.maxDepth := by
    rw [List.length_cons]
    omega
  exact (ha k rfl hk hl hs).orBackTo hs

private theorem node (r : Rule) (ha : S.Respects n ma₁ ma₂) :
    S.Respects n (Matcher.node r ma₁) (Matcher.node r ma₂) := by
  intro rules left₁ left₂ s₁ s₂ hn hl hs
  refine (ha hn hl hs).andThen ?_ (fun hd => hd)
  intro xs₁ xs₂ t₁ t₂ hx ht
  exact .matched (.cons (S.ofRule ht hx r) .nil) ht

private theorem collapse (r : Rule) (ha : S.Respects n ma₁ ma₂) :
    S.Respects n (Matcher.collapse r ma₁) (Matcher.collapse r ma₂) := by
  intro rules left₁ left₂ s₁ s₂ hn hl hs
  refine (ha hn hl hs).andThen ?_ ?_
  swap
  · intro xs s hd
    split
    · exact hd
    · exact hd
  intro xs₁ xs₂ t₁ t₂ hx ht
  have hnode := Agree.matched (.cons (S.ofRule ht hx r) .nil) ht
  -- a single tree stands for itself on both sides, because there are equally many
  cases hx with
  | nil => exact hnode
  | cons hx hxs =>
    cases hxs with
    | nil => exact .matched (.cons hx .nil) ht
    | cons _ _ => exact hnode

private theorem call (r : Rule) (ha : ∀ k, n = k + 1 → S.Respects k ma₁ ma₂) :
    S.Respects n (Matcher.call n r ma₁) (Matcher.call (n + S.extra) r ma₂) := by
  intro rules left₁ left₂ s₁ s₂ hn hl hs
  unfold Matcher.call
  split
  · exact collapse r (within r ha) hn .nil hs
  · exact node r (within r ha) hn .nil hs

private theorem only (r : Rule) (e : String) (ha : S.Respects n ma₁ ma₂) :
    S.Respects n (Matcher.only r e ma₁) (Matcher.only r e ma₂) := by
  intro rules left₁ left₂ s₁ s₂ hn hl hs
  refine (ha hn hl hs).andThen ?_ ?_
  swap
  · intro xs s hd
    split
    · exact hd
    · exact S.horizon.expecting hd _ e
  intro xs₁ xs₂ t₁ t₂ hx ht
  have hall : xs₁.all (·.is (.rule r)) = xs₂.all (·.is (.rule r)) := by
    induction hx with
    | nil => rfl
    | cons hx _ ih => rw [List.all_cons, List.all_cons, ih, S.symbol hx r]
  rw [hall]
  split
  · exact .matched hx ht
  · exact reject e hn hl ht

private theorem last (ha : S.Respects n ma₁ ma₂) : S.Respects n (Matcher.last ma₁) (Matcher.last ma₂) := by
  intro rules left₁ left₂ s₁ s₂ hn hl hs
  refine (ha hn hl hs).andThen ?_ (fun hd => hd)
  intro xs₁ xs₂ t₁ t₂ hx ht
  refine .matched ?_ ht
  have hr := List.rel_reverse hx
  rw [← List.head?_reverse, ← List.head?_reverse]
  generalize xs₁.reverse = ys₁, xs₂.reverse = ys₂ at hr
  cases hr with
  | nil => exact .nil
  | cons hx _ => exact .cons hx .nil

private theorem onto (ha : S.Respects n ma₁ ma₂) (hb : S.Respects n mb₁ mb₂) (hd : S.Drifts mb₁) :
    S.Respects n (Matcher.onto ma₁ mb₁) (Matcher.onto ma₂ mb₂) := by
  intro rules left₁ left₂ s₁ s₂ hn hl hs
  refine (ha hn hl hs).andThen ?_ (fun hs => hd hs)
  intro xs₁ xs₂ t₁ t₂ hx ht
  exact hb hn hx ht

/-- The links behind an operand keep step, from any count on. -/
private theorem links {ahead : Lookahead}
    (hahead : ∀ {s₁ s₂}, S.state s₁ s₂ → s₁.cursor.sees ahead = s₂.cursor.sees ahead) (ha : S.Respects n ma₁ ma₂)
    (hd : S.Drifts ma₁) {rules : List Rule} {left₁ left₂ : List Tree} (hn : rules.length + n ≤ S.limits₁.maxDepth)
    {count : Nat} {xs₁ xs₂ : List Tree} {s₁ s₂ : ParseState} (hx : List.Forall₂ S.tree xs₁ xs₂)
    (hs : S.state s₁ s₂) :
    S.Agree (Matcher.links n ahead ma₁ ⟨S.limits₁, rules, left₁⟩ count xs₁ s₁)
      (Matcher.links (n + S.extra) ahead ma₂ ⟨S.limits₂, rules, left₂⟩ count xs₂ s₂) := by
  induction s₁ using ParseState.ahead_induction generalizing s₂ xs₁ xs₂ count with
  | step s₁ ih =>
  rw [Matcher.links_eq, Matcher.links_eq (n + S.extra), hahead hs]
  split
  · apply (ifRoom count (fun _ => ha) hn hx hs).andThen
    · intro ys₁ ys₂ t₁ t₂ hy ht
      simp only [← S.moved hs ht]
      split
      · rename_i hlt
        exact ih t₁ hlt hy ht
      · exact .matched hy ht
    · intro ys t ht
      split
      · exact Lost.links hd ht
      · exact ht
  · exact .matched hx hs

private theorem chain {ahead : Lookahead}
    (hahead : ∀ {s₁ s₂}, S.state s₁ s₂ → s₁.cursor.sees ahead = s₂.cursor.sees ahead) (ha : S.Respects n ma₁ ma₂)
    (hb : S.Respects n mb₁ mb₂) (hd : S.Drifts mb₁) :
    S.Respects n (Matcher.chain n ma₁ ahead mb₁) (Matcher.chain (n + S.extra) ma₂ ahead mb₂) := by
  intro rules left₁ left₂ s₁ s₂ hn hl hs
  apply (ha hn hl hs).andThen
  · intro xs₁ xs₂ t₁ t₂ hx ht
    exact links hahead hb hd hn hx ht
  · intro xs s hs
    exact Lost.links hd hs

private theorem closingLabel : S.Respects n Matcher.closingLabel Matcher.closingLabel := by
  intro rules left₁ left₂ s₁ s₂ hn hl hs
  have hc := S.current hs
  have hname : s₁.cursor.current.terminal.isName = s₂.cursor.current.terminal.isName := S.accepts hc .name
  have hlabel := S.label hl
  unfold Matcher.closingLabel
  rw [hname]
  split
  · dsimp only
    generalize Matcher.labelName? left₁ = name₁, Matcher.labelName? left₂ = name₂ at hlabel
    cases hlabel with
    | none => exact reject _ hn hl hs
    | some hboth =>
      dsimp only
      rw [S.sameText hboth hc]
      split
      · exact advance hn hl hs
      · exact .mismatch (S.expectingLabel hs hboth rules)
  · exact .matched .nil hs

end Respects

/-! ### Whole patterns -/

/-- A pattern that can be compared keeps step with itself. -/
theorem run_respects (S : Simulation) (n : Nat) {p : Pattern} (hp : S.horizon.scope p) :
    S.Respects n (p.run n) (p.run (n + S.extra)) := by
  induction n using Nat.strongRecOn generalizing p with
  | ind n ihn =>
  have hdeep : ∀ q, S.horizon.scope q → ∀ k, n = k + 1 →
      S.Respects k (Pattern.deeper n q) (Pattern.deeper (n + S.extra) q) := by
    rintro q hq k rfl
    rw [Nat.add_right_comm k 1 S.extra]
    exact ihn k (by omega) hq
  have hpart : ∀ {p q}, S.horizon.scope p → q ∈ Pattern.parts p → S.horizon.scope q := S.horizon.scope_part
  have hbehind : ∀ {p q}, S.horizon.scope p → q ∈ Pattern.behind p → S.Drifts (q.run n) :=
    fun hp hq _ _ _ hs => S.horizon.drifts hp hq hs
  induction p with
  | empty =>
    rw [Pattern.run_eq_eval, Pattern.run_eq_eval]
    exact fun _ _ _ _ _ _ _ hs => .matched .nil hs
  | take k e =>
    rw [Pattern.run_eq_eval, Pattern.run_eq_eval]
    exact Respects.take k e
  | advance =>
    rw [Pattern.run_eq_eval, Pattern.run_eq_eval]
    exact Respects.advance
  | fail =>
    rw [Pattern.run_eq_eval, Pattern.run_eq_eval]
    exact fun _ _ _ _ _ _ _ hs => .mismatch hs
  | reject e =>
    rw [Pattern.run_eq_eval, Pattern.run_eq_eval]
    exact Respects.reject e
  | room wanted =>
    rw [Pattern.run_eq_eval, Pattern.run_eq_eval]
    exact Respects.ifRoom wanted (fun _ _ _ _ _ _ _ _ hs => .matched .nil hs)
  | seq a b iha ihb =>
    rw [Pattern.run_seq, Pattern.run_seq]
    exact (iha (hpart hp (by simp [Pattern.parts]))).seq (ihb (hpart hp (by simp [Pattern.parts])))
      (hbehind hp (by simp [Pattern.behind]))
  | orElse a b iha ihb =>
    rw [Pattern.run_orElse, Pattern.run_orElse]
    exact (iha (hpart hp (by simp [Pattern.parts]))).orElse (ihb (hpart hp (by simp [Pattern.parts])))
      (fun _ _ _ hs => S.horizon.stays hs)
  | many a iha =>
    have hd := hbehind hp (q := .many a) (by simp [Pattern.behind])
    rw [Pattern.run_many] at hd
    rw [Pattern.run_many, Pattern.run_many]
    exact (iha (hpart hp (by simp [Pattern.parts]))).many hd
  | ifNext ahead a b iha ihb =>
    intro rules left₁ left₂ s₁ s₂ hn hl hs
    rw [Pattern.run_ifNext, Pattern.run_ifNext, ← Cursor.sees_eq_holds, ← Cursor.sees_eq_holds,
      S.sees hs hp ahead (by simp [Pattern.lookaheads])]
    split
    · exact iha (hpart hp (by simp [Pattern.parts])) hn hl hs
    · exact ihb (hpart hp (by simp [Pattern.parts])) hn hl hs
  | within r a _ =>
    rw [Pattern.run_within, Pattern.run_within]
    exact Respects.within r (hdeep a (hpart hp (by simp [Pattern.parts])))
  | node r a iha =>
    rw [Pattern.run_node, Pattern.run_node]
    exact (iha (hpart hp (by simp [Pattern.parts]))).node r
  | collapse r a iha =>
    rw [Pattern.run_collapse, Pattern.run_collapse]
    exact (iha (hpart hp (by simp [Pattern.parts]))).collapse r
  | call r =>
    rw [Pattern.run_call, Pattern.run_call]
    exact Respects.call r (hdeep r.body (hpart hp (by simp [Pattern.parts])))
  | only r e a iha =>
    rw [Pattern.run_only, Pattern.run_only]
    exact (iha (hpart hp (by simp [Pattern.parts]))).only r e
  | last a iha =>
    rw [Pattern.run_last, Pattern.run_last]
    exact (iha (hpart hp (by simp [Pattern.parts]))).last
  | onto a b iha ihb =>
    rw [Pattern.run_onto, Pattern.run_onto]
    exact (iha (hpart hp (by simp [Pattern.parts]))).onto (ihb (hpart hp (by simp [Pattern.parts])))
      (hbehind hp (by simp [Pattern.behind]))
  | left =>
    rw [Pattern.run_eq_eval, Pattern.run_eq_eval]
    exact fun _ _ _ _ _ _ hl hs => .matched hl hs
  | chain a ahead b iha ihb =>
    rw [Pattern.run_chain, Pattern.run_chain]
    exact (iha (hpart hp (by simp [Pattern.parts]))).chain (fun hs => S.sees hs hp ahead (by simp [Pattern.lookaheads]))
      (ihb (hpart hp (by simp [Pattern.parts]))) (hbehind hp (by simp [Pattern.behind]))
  | closingLabel =>
    rw [Pattern.run_eq_eval, Pattern.run_eq_eval]
    exact Respects.closingLabel

/-- Matching a pattern at corresponding places keeps step. -/
theorem matchAt_agree (S : Simulation) (p : Pattern) {c₁ c₂ : Cursor} (h : S.state ⟨c₁, none⟩ ⟨c₂, none⟩)
    (hp : S.horizon.scope p := by trivial) : S.Agree (p.matchAt S.limits₁ c₁) (p.matchAt S.limits₂ c₂) := by
  have hd : S.limits₁.maxDepth + S.extra = S.limits₂.maxDepth := Nat.add_sub_cancel' S.depth_le
  have hr := S.run_respects S.limits₁.maxDepth hp
  rw [hd] at hr
  exact hr (by simp) .nil h

end Simulation

end PlsqlLint
