import PlsqlLint.Proofs.Choice
import PlsqlLint.Proofs.InBounds
import PlsqlLint.Proofs.Subtree

/-!
# The books of a parser

Whatever pattern is matched, and however the match ends, the parser has its stream, its limits, its rules and its marks
again, and the record of its furthest failures has not gone back.  Where a rule does not match, it is back at the place
where the rule was tried (`Reply.Restores`).

Whether a match must have passed a token is seen from the pattern (`Pattern.consumes`).  Every rule of the grammar but
the one of a whole unit does, and so does all that is repeated (`Pattern.InGrammar.progresses`), so a repetition never
stops at a match that has read nothing.
-/

namespace PlsqlLint

/-! ### The patterns of the grammar -/

namespace Pattern

/-- The patterns that a parse can come to: the root of each rule, and the parts of these. -/
inductive InGrammar : Pattern → Prop
  | root (r : Rule) : InGrammar r.root
  | part {p q : Pattern} (hp : InGrammar p) (hq : q ∈ p.parts) : InGrammar q

/-- The ordered choices, and the levels of precedence that are not rules of their own. -/
def levels : List Pattern :=
  [statement, declaration, negation, comparison, signed, primary, literal, reference]

/-- What the grammar gives a name to: the root of a rule, a call of it, the tail of a comparison, which is matched
within the rule of the comparison, and the levels. -/
inductive IsProduction : Pattern → Prop
  | root (r : Rule) : IsProduction r.root
  | call (r : Rule) : IsProduction (.call r)
  | tail {r : Rule} {body : Pattern} (h : InGrammar (.within r body)) : IsProduction (.within r body)
  | level {p : Pattern} (h : p ∈ levels) : IsProduction p

/-! ### Patterns that read something -/

/-- A match has passed a token. -/
def consumes (p : Pattern) : Bool := p.passes && decide (0 < p.width)

/-- All that the pattern repeats or matches within a rule has passed a token if it matches. -/
def progresses : Pattern → Bool
  | .empty | .take _ _ | .advance | .fail | .reject _ | .room _ | .left | .closingLabel | .call _ => true
  | .seq a b | .orElse a b | .ifNext _ a b | .onto a b => a.progresses && b.progresses
  | .chain a _ b => a.progresses && b.progresses && b.consumes
  | .many a | .within _ a => a.progresses && a.consumes
  | .node _ a | .collapse _ a | .only _ _ a | .last a => a.progresses

end Pattern

private theorem Rule.progresses_body (r : Rule) : r.body.progresses = true := by
  cases r <;> decide

private theorem Rule.progresses_root (r : Rule) : r.root.progresses = true := by
  cases r <;> decide

namespace Pattern

variable {p q : Pattern}

private theorem progresses_of_mem_parts (hp : p.progresses = true) (hq : q ∈ p.parts) : q.progresses = true := by
  cases p with
  | call r =>
    rw [List.mem_singleton.1 hq]
    exact r.progresses_body
  | seq | orElse | ifNext | onto | chain | many | within | node | collapse | only | last =>
    simp only [parts, progresses, Bool.and_eq_true, List.mem_cons, List.not_mem_nil, or_false] at hp hq
    grind
  | _ => cases hq

theorem InGrammar.progresses (h : p.InGrammar) : p.progresses = true := by
  induction h with
  | root r => exact r.progresses_root
  | part _ hq ih => exact progresses_of_mem_parts ih hq

private theorem InGrammar.consumes_many (h : (Pattern.many p).InGrammar) : p.consumes = true :=
  (Bool.and_eq_true_iff.1 h.progresses).2

private theorem InGrammar.consumes_chain {ahead : Lookahead} (h : (Pattern.chain p ahead q).InGrammar) :
    q.consumes = true :=
  (Bool.and_eq_true_iff.1 h.progresses).2

/-- Every production but a unit reads something. -/
theorem IsProduction.consumes (h : p.IsProduction) (hp : p ≠ .call .fileInput) : p.consumes = true := by
  cases h with
  | root r => cases r <;> first | exact absurd rfl hp | decide
  | call r =>
    have hr : r ≠ .fileInput := by
      rintro rfl
      exact hp rfl
    simp [Pattern.consumes, passes, width, least, hr, Rule.width_pos hr]
  | tail hin => exact (Bool.and_eq_true_iff.1 hin.progresses).2
  | level hmem =>
    have hall : levels.all (·.consumes) = true := by decide
    exact List.all_eq_true.1 hall p hmem

/-- In a stream that ends with the end of the input, a match of a pattern that reads something leaves less of it. -/
theorem ahead_lt_of_matched {n : Nat} {env : Surroundings} {s t : ParseState} {xs : List Tree}
    (hp : p.consumes = true) (hts : Terminated s.cursor.tokens) (h : p.run n env s = .matched xs t) :
    t.cursor.ahead.length < s.cursor.ahead.length ∧ Terminated t.cursor.tokens := by
  obtain ⟨hpass, hwidth⟩ := Bool.and_eq_true_iff.1 hp
  have hpos : 0 < p.width := of_decide_eq_true hwidth
  obtain ⟨w, hw, hle⟩ := (reads_of_matched h).wide hpass hts
  have hlength := congrArg List.length hw.split
  rw [List.length_append, Cursor.length_tokens, Cursor.length_tokens] at hlength
  exact ⟨by omega, hw.terminated hts⟩

/-- Such a match is further on. -/
theorem index_lt_of_matched {n : Nat} {env : Surroundings} {s t : ParseState} {xs : List Tree} {ts : List Token}
    (hp : p.consumes = true) (hs : s.cursor.IsIn ts) (ht : t.cursor.IsIn ts) (hts : Terminated ts)
    (h : p.run n env s = .matched xs t) : s.cursor.index < t.cursor.index := by
  obtain ⟨hlt, -⟩ := ahead_lt_of_matched hp (hs.terminated hts) h
  have hfrom := hs.length_eq
  have hto := ht.length_eq
  omega

/-! ### A unit without statements -/

/-- At the end of the input there are no items of a unit. -/
private theorem reads_noItems {e : Token} (he : e.terminal = .endOfInput) (rest : List Token) :
    ∃ xs, Reads 2 unitItems [] (e :: rest) (some (xs, e :: rest)) := by
  have hfirsts : unitItems.firsts.all (·.passable) = true := by decide
  have hforeign : ∀ t : Token, t.terminal = .endOfInput → t.Foreign unitItems.firsts := by
    intro t ht k hk
    rw [← Bool.not_eq_true]
    intro hacc
    exact TokenClass.ne_endOfInput (List.all_eq_true.1 hfirsts k hk) hacc ht
  -- Which end of the input it is makes no difference, so one is tried.
  have hrun : (unitItems.run 2 ⟨.forDepth 2, [], []⟩ ⟨⟨0, .endAt default, []⟩, none⟩).outcome? =
      some (some ([], [.endAt default])) := by cbv
  have hread := run_sound _ _ _ _ _ hrun
  obtain ⟨_, hother, hsame⟩ := hread.foreign rfl (hforeign _ rfl) (hforeign e he) rest []
  cases hsame
  exact ⟨_, hother⟩

/-- At the end of the input an empty unit matches, if there is room for the rules that it tries. -/
theorem run_fileInput_atEnd {c : Cursor} (hc : c.atEnd = true) {n : Nat} (hn : 3 ≤ n) (env : Surroundings)
    (hb : env.limits.Allows env.rules n) (record : Option Furthest) :
    ∃ xs t, (Pattern.call .fileInput).run n env ⟨c, record⟩ = .matched xs t ∧ t.cursor.tokens = c.tokens := by
  have he : c.current.terminal = .endOfInput := by simpa [Cursor.atEnd] using hc
  have hstays : c.tokens = passed c.tokens := by
    rw [← Cursor.tokens_advance, Cursor.advance, if_pos hc]
  obtain ⟨xs, hitems⟩ := reads_noItems he c.ahead
  have hend : Reads 2 (terminal .endOfInput) [] c.tokens (some ([.leaf c.current], c.tokens)) :=
    .take (by simp [TokenClass.accepts, he]) hstays
  have hbody : Reads 2 (Rule.body .fileInput) [] c.tokens (some (xs ++ [.leaf c.current], c.tokens)) :=
    .seq hitems hend rfl
  have hcall := (Reads.call (l := env.left) hbody rfl).mono hn
  obtain ⟨t, hrun, ht⟩ := Reply.eq_matched_of_outcome? (hcall.outcome env (s := ⟨c, record⟩) hb rfl)
  exact ⟨_, t, hrun, ht⟩

end Pattern

/-! ### Going back where a rule does not match -/

namespace Reply

variable {c : Cursor} {r : Reply}

/-- Unless there was a match, the parser is at the place. -/
def Restores (c : Cursor) : Reply → Prop
  | .matched _ _ => True
  | .mismatch s | .fatal _ s => s.cursor = c

theorem restores_orBackTo (c : Cursor) (r : Reply) : (r.orBackTo c).Restores c := by
  cases r with
  | matched xs s => trivial
  | mismatch s => rfl
  | fatal o s => rfl

theorem Restores.andThen {next : List Tree → ParseState → Reply} (h : r.Restores c)
    (hnext : ∀ xs s, (next xs s).Restores c) : (r.andThen next).Restores c := by
  cases r with
  | matched xs s => exact hnext xs s
  | mismatch s => exact h
  | fatal o s => exact h

end Reply

namespace Pattern

variable {n : Nat} {env : Surroundings} {s : ParseState}

private theorem restores_within (r : Rule) (m : Matcher) : (Matcher.within n r m env s).Restores s.cursor := by
  unfold Matcher.within Matcher.ifRoom
  split
  · rfl
  · exact Reply.restores_orBackTo _ _

private theorem restores_call (r : Rule) (m : Matcher) : (Matcher.call n r m env s).Restores s.cursor := by
  unfold Matcher.call
  split
  · refine (restores_within r m).andThen ?_
    intro xs t
    split <;> trivial
  · exact (restores_within r m).andThen fun _ _ => trivial

end Pattern

/-! ### The books -/

namespace Machine

variable {m : Machine} {c : Cursor}

theorem Intact.exists_cursor (h : m.Intact) : ∃ c, m.cursor? = some c := by
  unfold cursor?
  rw [List.drop_eq_getElem_cons h.pos]
  exact ⟨_, rfl⟩

/-- A match leaves a machine with its indices in bounds. -/
theorem Intact.move (h : m.Intact) {i : Nat} {record : Option Furthest}
    (hc : { m with pos := i, furthest := record }.cursor? = some c) :
    { m with pos := i, furthest := record }.Intact := by
  obtain ⟨hin, hindex⟩ := isIn_of_cursor? hc
  exact ⟨h.terminated, hindex ▸ hin.lt_length, h.marks⟩

/-- A match of a pattern that reads something is further on. -/
theorem Intact.pos_lt (h : m.Intact) (hc : m.cursor? = some c) {p : Pattern} (hp : p.consumes = true) {n : Nat}
    {left : List Tree} {xs : List Tree} {t : ParseState}
    (hrun : p.run n ⟨m.limits, m.rules, left⟩ ⟨c, m.furthest⟩ = .matched xs t) : m.pos < t.cursor.index := by
  have hstop := (h.run?_steps hc p n left).2
  rw [hrun] at hstop
  obtain ⟨hin, hindex⟩ := isIn_of_cursor? hc
  exact hindex ▸ Pattern.index_lt_of_matched hp hin (isIn_of_cursor? hstop).1 h.terminated hrun

/-- Every pattern keeps the books, from any state of the parser and however the match ends: the stream, the limits, the
rules and the marks are what they were, and what the record of failures says is kept, so its place does not come closer.

A production that matches is further on, but for an empty unit, which matches at the end of the input.  Where a call of
a rule or the body of a rule does not match, the parser is back at the place where it was.  What is repeated never
matches without reading a token. -/
theorem Intact.books (m : Machine) (h : m.Intact) (left : List Tree) :
    ∃ c, m.cursor? = some c ∧
    let env : Surroundings := ⟨m.limits, m.rules, left⟩
    let reply (p : Pattern) : Reply := p.run m.levels env ⟨c, m.furthest⟩
    (∀ p : Pattern, ∃ m', m.run? (p.steps m.levels env ⟨c, m.furthest⟩) = some m' ∧ m'.Intact ∧
      m'.tokens = m.tokens ∧ m'.limits = m.limits ∧ m'.rules = m.rules ∧ m'.marks = m.marks ∧
      m'.cursor? = some (reply p).state.cursor ∧ m'.furthest = (reply p).state.furthest ∧
      Furthest.Kept m.furthest m'.furthest ∧ ∀ f ∈ m.furthest, ∃ f' ∈ m'.furthest, f.index ≤ f'.index) ∧
    (∀ p xs t, p.IsProduction → p ≠ .call .fileInput → reply p = .matched xs t → m.pos < t.cursor.index) ∧
    (c.atEnd = true → 3 ≤ m.levels → m.limits.Ample →
      ∃ xs t, reply (.call .fileInput) = .matched xs t ∧ t.cursor.index = m.pos) ∧
    (∀ r, (reply (.call r)).Restores c) ∧ (∀ r body, (reply (.within r body)).Restores c) ∧
    (∀ item xs t, (Pattern.many item).InGrammar → reply item = .matched xs t → m.pos < t.cursor.index) ∧
    ∀ operand ahead link xs t, (Pattern.chain operand ahead link).InGrammar → reply link = .matched xs t →
      m.pos < t.cursor.index := by
  obtain ⟨c, hc⟩ := h.exists_cursor
  refine ⟨c, hc, ?_⟩
  intro env reply
  refine ⟨?_, ?_, ?_, ?_, ?_, ?_, ?_⟩
  · intro p
    obtain ⟨hrun, hstop⟩ := h.run?_steps hc p m.levels left
    have hkept := (p.run_grows m.levels env ⟨c, m.furthest⟩).kept
    exact ⟨_, hrun, h.move hstop, rfl, rfl, rfl, rfl, hstop, rfl, hkept, fun f hf => hkept.index_le hf⟩
  · intro p xs t hp hne hmatch
    exact h.pos_lt hc (hp.consumes hne) hmatch
  · intro hend hlevels hbudget
    have hallows : m.limits.Allows m.rules m.levels := by
      refine ⟨hbudget, ?_⟩
      unfold levels at hlevels ⊢
      omega
    obtain ⟨xs, t, hmatch, htokens⟩ := Pattern.run_fileInput_atEnd hend hlevels env hallows m.furthest
    have hstop := (h.run?_steps hc (.call .fileInput) m.levels left).2
    rw [hmatch] at hstop
    refine ⟨xs, t, hmatch, ?_⟩
    -- There are as many tokens from the one place on as from the other.
    obtain ⟨hin, hindex⟩ := isIn_of_cursor? hc
    have hlength := congrArg List.length htokens
    rw [Cursor.length_tokens, Cursor.length_tokens] at hlength
    have hfrom := hin.length_eq
    have hto : m.tokens.length = t.cursor.index + t.cursor.ahead.length + 1 := (isIn_of_cursor? hstop).1.length_eq
    omega
  · intro r
    show ((Pattern.call r).run _ _ _).Restores c
    rw [Pattern.run_call]
    exact Pattern.restores_call r _
  · intro r body
    show ((Pattern.within r body).run _ _ _).Restores c
    rw [Pattern.run_within]
    exact Pattern.restores_within r _
  · intro item xs t hin hmatch
    exact h.pos_lt hc hin.consumes_many hmatch
  · intro operand ahead link xs t hin hmatch
    exact h.pos_lt hc hin.consumes_chain hmatch

/-- In the middle of a unit `NULL;` is read as a statement and as an item of the unit, and an `IF` statement is not
found there; behind it an empty unit matches. -/
theorem Intact.books_null :
    let tokens : List Token := [.bare (.keyword .NULL) "NULL", .bare .semicolon ";"]
    let m : Machine := { Machine.start tokens (.forDepth 4) with rules := [.fileInput], marks := [2] }
    let item : Pattern := .ifNext [[.oneOf [.divide]]] (Pattern.terminal .divide) Pattern.statement
    m.Intact ∧ (Pattern.call .nullStatement).IsProduction ∧ (Pattern.many item).InGrammar ∧
    (∃ c, m.cursor? = some c ∧
      let reply (p : Pattern) : Reply := p.run m.levels ⟨m.limits, m.rules, []⟩ ⟨c, m.furthest⟩
      (∃ xs t, reply (.call .nullStatement) = .matched xs t ∧ m.pos < t.cursor.index) ∧
      (∃ xs t, reply item = .matched xs t ∧ m.pos < t.cursor.index) ∧
      ∃ t, reply (.call .ifStatement) = .mismatch t ∧ t.cursor = c) ∧
    ∃ c, { m with pos := 2 }.cursor? = some c ∧ c.atEnd = true ∧
      ∃ xs t, (Pattern.call .fileInput).run m.levels ⟨m.limits, m.rules, []⟩ ⟨c, m.furthest⟩ = .matched xs t ∧
        t.cursor.index = 2 := by
  intro tokens m item
  have hm : m.Intact := ⟨terminated_ofTokens tokens, by decide, by decide⟩
  have hend : { m with pos := 2 }.Intact := ⟨terminated_ofTokens tokens, by decide, by decide⟩
  have hitem : (Pattern.many item).InGrammar :=
    .part (.part (.root .fileInput) (List.mem_singleton.2 rfl)) List.mem_cons_self
  refine ⟨hm, .call _, hitem, ?_, ?_⟩
  · obtain ⟨c, hc, -, hproduction, -, hcall, -, hmany, -⟩ := Intact.books m hm []
    obtain rfl := Option.some.inj hc
    have hproduction := hproduction (.call .nullStatement) _ _ (.call _) (by simp) rfl
    exact ⟨_, hc, ⟨_, _, rfl, hproduction⟩, ⟨_, _, rfl, hmany _ _ _ hitem rfl⟩, _, rfl, hcall .ifStatement⟩
  · obtain ⟨c, hc, -, -, hunit, -⟩ := Intact.books _ hend []
    obtain rfl := Option.some.inj hc
    exact ⟨_, hc, rfl, hunit rfl (by decide) (Limits.ample_forDepth 4)⟩

end Machine

end PlsqlLint
