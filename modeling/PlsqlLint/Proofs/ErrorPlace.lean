import PlsqlLint.Proofs.Steps

/-!
# The place of a syntax error

A syntax error is reported at the furthest place that the parser has been at (`parseRule_error_furthest`).  The places
are those on the way of its steps (`Parser.course`), and what it misses there is noted with the rules that have been
entered at the time (`Stance.misses`).
-/

namespace PlsqlLint

/-! ### Along a course -/

namespace Stance

variable {x : Stance} {ms : List ParseStep} {ts : List Token}

/-- What every step preserves holds all along. -/
theorem course_induction {P : Stance → Prop} (hx : P x) (hstep : ∀ y m, P y → P (y.after m)) :
    ∀ y ∈ x.course ms, P y := by
  induction ms generalizing x with
  | nil => exact List.forall_mem_singleton.2 hx
  | cons m ms ih => exact forall_course_cons.2 ⟨hx, ih (hstep x m hx)⟩

/-- What a step notes. -/
def missed? (x : Stance) : ParseStep → Option Failure
  | .miss expected => some ⟨x.state.cursor.index, x.state.cursor.current, expected, x.rules⟩
  | .advance | .mark | .rewind | .forget | .enter _ | .leave => none

/-- What is missed on the way, the earliest first. -/
def misses (x : Stance) : List ParseStep → List Failure
  | [] => []
  | m :: ms => (x.missed? m).toList ++ (x.after m).misses ms

private theorem furthest_after (x : Stance) (m : ParseStep) :
    (x.after m).state.furthest = (x.missed? m).toList.foldl Furthest.note x.state.furthest := by
  cases m with
  | rewind =>
    rw [after]
    split <;> rfl
  | advance | mark | forget | enter | leave | miss => rfl

/-- The record is that of all that has been missed. -/
theorem furthest_run (x : Stance) (ms : List ParseStep) :
    (x.run ms).state.furthest = (x.misses ms).foldl Furthest.note x.state.furthest := by
  induction ms generalizing x with
  | nil => rfl
  | cons m ms ih => rw [run_cons, ih, furthest_after, misses, List.foldl_append]

/-- Whatever is missed is missed somewhere on the way. -/
private theorem exists_of_mem_misses {f : Failure} (h : f ∈ x.misses ms) :
    ∃ y ∈ x.course ms, f.index = y.state.cursor.index ∧ f.token = y.state.cursor.current := by
  induction ms generalizing x with
  | nil => cases h
  | cons m ms ih =>
    rcases List.mem_append.1 h with h | h
    · refine ⟨x, mem_course_self _ _, ?_⟩
      cases m with
      | miss expected =>
        rw [List.mem_singleton.1 h]
        exact ⟨rfl, rfl⟩
      | advance | mark | rewind | forget | enter | leave => cases h
    · obtain ⟨y, hy, hf⟩ := ih h
      exact ⟨y, List.mem_cons_of_mem _ hy, hf⟩

/-- The parser is in the stream, and so are the places it may go back to. -/
def IsIn (x : Stance) (ts : List Token) : Prop := x.state.cursor.IsIn ts ∧ ∀ c ∈ x.marks, c.IsIn ts

theorem IsIn.after (h : x.IsIn ts) (m : ParseStep) : (x.after m).IsIn ts := by
  obtain ⟨hcursor, hmarks⟩ := h
  cases m with
  | advance => exact ⟨hcursor.advance, hmarks⟩
  | mark => exact ⟨hcursor, List.forall_mem_cons.2 ⟨hcursor, hmarks⟩⟩
  | rewind =>
    rw [Stance.after]
    split
    · exact ⟨hcursor, hmarks⟩
    · rename_i c marks hcons
      rw [hcons, List.forall_mem_cons] at hmarks
      exact hmarks
  | forget => exact ⟨hcursor, fun c hc => hmarks c (List.mem_of_mem_tail hc)⟩
  | enter | leave | miss => exact ⟨hcursor, hmarks⟩

end Stance

/-! ### The course of a parse -/

namespace Parser

/-- The parser before its first step. -/
def beginning (p : Parser) : Stance := ⟨⟨p.start, none⟩, [], []⟩

/-- The steps of a parse.  Behind a match that does not reach it, the end of the input is missed. -/
def steps (p : Parser) (rule : Rule) : List ParseStep :=
  rule.root.steps p.limits.maxDepth ⟨p.limits, [], []⟩ ⟨p.start, none⟩ ++
    (rule.root.matchAt p.limits p.start).stepsAfter fun _ s =>
      if s.cursor.atEnd then [] else [.miss (Terminal.describe .endOfInput)]

/-- All that the parser passes in a parse. -/
def course (p : Parser) (rule : Rule) : List Stance := p.beginning.course (p.steps rule)

/-- All that is missed in a parse, the earliest first. -/
def misses (p : Parser) (rule : Rule) : List Failure := p.beginning.misses (p.steps rule)

variable {p : Parser} {rule : Rule} {e : SyntaxError}

/-- A parse that ends with a syntax error has noted a failure at every place on its way, or behind it. -/
theorem route_of_error (h : conclude (rule.root.matchAt p.limits p.start) = .error (.unexpected e)) :
    Route ⟨p.start, none⟩ [] (p.steps rule)
      (fun k => ∃ f ∈ furthest (rule.root.matchAt p.limits p.start), k ≤ f.index)
      ⟨(p.parseRule rule).2.cursor, furthest (rule.root.matchAt p.limits p.start)⟩ := by
  have hroute : Reply.Followed _ _ _ _ (rule.root.matchAt p.limits p.start) :=
    rule.root.run_followed p.limits.maxDepth ⟨p.limits, [], []⟩ ⟨p.start, none⟩
  have hgrown : Reply.Grown _ _ (rule.root.matchAt p.limits p.start) :=
    rule.root.run_grows p.limits.maxDepth ⟨p.limits, [], []⟩ ⟨p.start, none⟩
  rw [rule.accountable_root] at hroute
  rw [rule.explains_root] at hgrown
  unfold steps parseRule
  rcases conclude_cases h (fun _ => matchAt_root_ne_nil) with ⟨x, xs, s, hr, hend⟩ | ⟨s, hr⟩
  · rw [hr] at hroute ⊢
    simp only [furthest, Reply.stepsAfter, hend, Bool.false_eq_true, if_false]
    have hmissed := s.noted_expecting [] (Terminal.describe .endOfInput)
    refine (Route.mono hroute fun k hk => ?_).append (Route.miss _ hmissed)
    rcases hk rfl with hi | hnoted
    · exact hmissed.mono hi
    · exact hnoted.kept (s.kept_expecting [] (Terminal.describe .endOfInput))
  · rw [hr] at hroute hgrown ⊢
    rw [Reply.stepsAfter, List.append_nil]
    exact Route.mono hroute fun k hk => hgrown.noted_of_remembers (hk rfl)

/-- The record that is reported on sums up what has been missed. -/
theorem sumsUp_misses (h : conclude (rule.root.matchAt p.limits p.start) = .error (.unexpected e)) {f : Furthest}
    (hf : furthest (rule.root.matchAt p.limits p.start) = some f) : Furthest.SumsUp (p.misses rule) f := by
  have hrun := p.beginning.furthest_run (p.steps rule)
  have hends : p.beginning.run (p.steps rule) = _ := (route_of_error h).ends []
  rw [hends, hf] at hrun
  have hne : p.misses rule ≠ [] := by
    intro hnil
    rw [misses] at hnil
    rw [hnil] at hrun
    cases hrun
  obtain ⟨r, hr, hsum⟩ := Furthest.foldl_note hne
  obtain rfl : f = r := Option.some.inj (hrun.trans hr)
  exact hsum

/-- All places of a parse are in the stream. -/
private theorem isIn_of_mem_course {tokens : List Token} {limits : Limits} {x : Stance}
    (hx : x ∈ (ofTokens tokens limits).course rule) : x.IsIn (ofTokens tokens limits).tokens := by
  refine Stance.course_induction (P := (·.IsIn (ofTokens tokens limits).tokens)) ?_ (fun y m hy => hy.after m) x hx
  exact ⟨Cursor.isIn_ofTokens tokens, List.forall_mem_nil _⟩

end Parser

/-- A syntax error is reported at the furthest place that the parser has been at.  The steps of the parse lead to the
place that it leaves and to a record of failures, and the error is made from this record: the place is the greatest on
the way, the token is the one there, the expectations are all that have been missed there, each once and the earliest
first, and the rules are those that had been entered when something was missed there for the first time. -/
theorem parseRule_error_furthest (tokens : List Token) (limits : Limits) (rule : Rule) (e : SyntaxError)
    (h : ((Parser.ofTokens tokens limits).parseRule rule).1 = .error (.unexpected e)) :
    let p := Parser.ofTokens tokens limits
    ∃ (record : Furthest) (first : Failure) (later : List Failure),
      p.beginning.run (p.steps rule) = ⟨⟨(p.parseRule rule).2.cursor, some record⟩, [], []⟩ ∧
      IsGreatest {k | ∃ x ∈ p.course rule, x.state.cursor.index = k} record.index ∧
      (p.misses rule).filter (·.index == record.index) = first :: later ∧
      record.expected = ((first :: later).map (·.expected)).eraseDups ∧
      record.rules = first.rules ∧
      p.tokens[record.index]? = some e.token ∧
      e.expectation = " or ".intercalate record.expected ∧
      e.rules = record.rules.reverse := by
  intro p
  change Parser.conclude (rule.root.matchAt p.limits p.start) = _ at h
  have hroute := Parser.route_of_error h
  obtain ⟨record, hrecord⟩ := Parser.exists_furthest h
  have he := Parser.eq_of_conclude h fun _ => Parser.matchAt_root_ne_nil
  obtain ⟨-, first, later, hthere, heq⟩ := Parser.sumsUp_misses h hrecord
  have hplace : first.index = record.index := (congrArg Furthest.index heq).symm
  have hmem : first ∈ p.misses rule := by
    have hfirst : first ∈ (p.misses rule).filter (·.index == record.index) := hthere ▸ List.mem_cons_self
    exact (List.mem_filter.1 hfirst).1
  obtain ⟨x, hx, hindex, htoken⟩ := Stance.exists_of_mem_misses hmem
  rw [hrecord] at he hroute
  refine ⟨record, first, later, hroute.ends [], ⟨?_, ?_⟩, hthere, congrArg Furthest.expected heq,
    congrArg Furthest.rules heq, ?_, ?_, ?_⟩
  · exact ⟨x, hx, hindex.symm.trans hplace⟩
  · rintro k ⟨y, hy, rfl⟩
    obtain ⟨f, hf, hle⟩ := hroute.along [] y hy
    obtain rfl : record = f := Option.some.inj hf
    exact hle
  · have htoken : e.token = x.state.cursor.current := by
      rw [he, ← htoken]
      exact congrArg Furthest.token heq
    rw [htoken, ← hplace, hindex]
    exact (Parser.isIn_of_mem_course hx).1.current
  · rw [he]
    rfl
  · rw [he]
    rfl

/-- A comma where a column is to be locked.  The clause can be read without columns, so two failures at the word `OF`
come later, but the error is reported at the comma. -/
theorem parseRule_error_furthest_comma :
    let p := Parser.ofTokens
      [.bare (.keyword .FOR) "FOR", .bare (.keyword .UPDATE) "UPDATE", .bare (.keyword .OF) "OF", .bare .comma ","]
      (.forDepth 4)
    (p.parseRule .forUpdateClause).1 =
      .error (.unexpected ⟨.bare .comma ",", ["identifier"], [.forUpdateClause, .columnReference]⟩) ∧
    (p.misses .forUpdateClause).map (fun f => (f.index, f.expected)) =
      [(3, "identifier"), (2, "SKIP"), (2, "end of input")] ∧
    IsGreatest {k | ∃ x ∈ p.course .forUpdateClause, x.state.cursor.index = k} 3 := by
  intro p
  have hparse : (p.parseRule .forUpdateClause).1 =
      .error (.unexpected ⟨.bare .comma ",", ["identifier"], [.forUpdateClause, .columnReference]⟩) := by cbv
  refine ⟨hparse, by cbv, ?_⟩
  obtain ⟨record, -, -, -, hgreatest, -, -, -, hget, -, -⟩ := parseRule_error_furthest _ _ _ _ hparse
  have hcomma : ∀ i < 5, p.tokens[i]? = some (.bare .comma ",") → i = 3 := by decide
  rw [hcomma record.index (List.getElem?_eq_some_iff.1 hget).1 hget] at hgreatest
  exact hgreatest

end PlsqlLint
