import PlsqlLint.Proofs.ErrorPlace

/-!
# Parsers stay in their stream

A `Machine` has no way to go on when it looks at an index that is out of bounds.  It takes the same steps as the parser
with a cursor (`Stance.after?_machine`), so the operations of the parser are runs of it.

However the steps follow each other, the index never gets behind the first end of the input, and neither do the indices
that the machine may go back to or report an error at (`Stance.Bounded`).  Hence no token is looked for in vain
(`Machine.Reachable.in_bounds`).
-/

namespace PlsqlLint

/-! ### All that can be reached -/

/-- What any operations lead to, be they complete or not: they take steps, they start over, and the limits may be
changed in between. -/
inductive Machine.Reachable (tokens : List Token) : Machine → Prop
  | start (limits : Limits) : Reachable tokens (start tokens limits)
  | step {m m' : Machine} (s : ParseStep) (h : Reachable tokens m) (hs : m.after? s = some m') : Reachable tokens m'
  | restart {m : Machine} (h : Reachable tokens m) : Reachable tokens m.restart
  | limit {m : Machine} (limits : Limits) (h : Reachable tokens m) : Reachable tokens { m with limits }

/-! ### The machine and the parser with a cursor -/

namespace Cursor

variable {c : Cursor} {ts : List Token}

/-- In a stream that ends with the end of the input, every other token is passed. -/
private theorem IsIn.index_advance (h : c.IsIn ts) (hts : Terminated ts) :
    c.advance.index = if c.current.terminal = .endOfInput then c.index else c.index + 1 := by
  by_cases hend : c.current.terminal = .endOfInput
  · simp [Cursor.advance, atEnd, hend]
  · obtain ⟨t, us, hcons⟩ := List.exists_cons_of_ne_nil (h.ahead_ne_nil hts hend)
    simp [Cursor.advance, atEnd, hend, hcons]

theorem IsIn.lt_length (h : c.IsIn ts) : c.index < ts.length := by
  rw [h.length_eq]
  omega

/-- Every index of a stream is the place of a cursor. -/
theorem exists_isIn {i : Nat} (h : i < ts.length) : ∃ c : Cursor, c.IsIn ts ∧ c.index = i :=
  ⟨⟨i, ts[i], ts.drop (i + 1)⟩, List.drop_eq_getElem_cons h, rfl⟩

/-- Looking ahead finds the token at that index, or the last one. -/
theorem IsIn.peek (h : c.IsIn ts) (n : Nat) : ts[min (c.index + n) (ts.length - 1)]? = some (c.peek n) := by
  have hlength := h.length_eq
  have hdrop : ts.drop c.index = c.current :: c.ahead := h
  cases n with
  | zero =>
    rw [Nat.min_eq_left (by omega)]
    exact h.current
  | succ n =>
    rw [Cursor.peek]
    by_cases hn : n < c.ahead.length
    · rw [Nat.min_eq_left (by omega), ← List.getElem?_drop, hdrop, List.getElem?_cons_succ, List.getElem?_eq_getElem hn,
        Option.getD_some]
    · have hlast : ts.getLast? = (ts.drop c.index).getLast? := by rw [List.getLast?_drop, if_neg (by omega)]
      rw [Nat.min_eq_right (by omega), ← List.getLast?_eq_getElem?, hlast, hdrop, List.getLast?_cons,
        List.getElem?_eq_none (by omega), Option.getD_none, List.getLastD_eq_getLast?]

end Cursor

namespace Stance

variable {x : Stance} {ts : List Token}

/-- The machine that does what the parser with a cursor does. -/
def machine (x : Stance) (ts : List Token) (limits : Limits) : Machine :=
  ⟨ts, x.state.cursor.index, limits, x.rules, x.state.furthest, x.marks.map (·.index)⟩

/-- Both take the same steps. -/
theorem after?_machine (hx : x.IsIn ts) (hts : Terminated ts) (limits : Limits) (s : ParseStep) :
    (x.machine ts limits).after? s = some ((x.after s).machine ts limits) := by
  have hcurrent : (x.machine ts limits).current? = some x.state.cursor.current := hx.1.current
  cases s with
  | advance =>
    rw [Machine.after?, hcurrent, Option.map_some, after, machine, machine]
    dsimp only [ParseState.backTo]
    rw [hx.1.index_advance hts]
    split <;> rfl
  | enter | miss =>
    rw [Machine.after?, hcurrent]
    rfl
  | mark | leave => rfl
  | rewind =>
    rw [Machine.after?, after]
    cases hmarks : x.marks <;> simp [machine, hmarks, ParseState.backTo]
  | forget =>
    rw [Machine.after?, after]
    cases hmarks : x.marks with
    | nil => simp [machine, hmarks]
    | cons c marks =>
      have hc : ts[c.index]? = some c.current := (hx.2 c (by rw [hmarks]; exact List.mem_cons_self)).current
      simp [machine, hmarks, hc]

private theorem run?_machine (hx : x.IsIn ts) (hts : Terminated ts) (limits : Limits) (steps : List ParseStep) :
    (x.machine ts limits).run? steps = some ((x.run steps).machine ts limits) := by
  induction steps generalizing x with
  | nil => rfl
  | cons s steps ih =>
    rw [Machine.run?, after?_machine hx hts limits, Option.bind_some, ih (hx.after s), run_cons]

theorem IsIn.run (hx : x.IsIn ts) (steps : List ParseStep) : (x.run steps).IsIn ts := by
  induction steps generalizing x with
  | nil => exact hx
  | cons s steps ih => exact ih (hx.after s)

/-! ### What stays in bounds -/

/-- The parser is in the stream and not behind the index `last`; the same goes for the places that it may go back to and
for the furthest one where it has missed something. -/
structure Bounded (ts : List Token) (last : Nat) (x : Stance) : Prop where
  isIn : x.IsIn ts
  place : x.state.cursor.index ≤ last
  marks : ∀ c ∈ x.marks, c.index ≤ last
  furthest : ∀ f ∈ x.state.furthest, ts[f.index]? = some f.token ∧ f.index ≤ last

/-- No step gets behind an end of the input. -/
theorem Bounded.after {last : Nat} (h : x.Bounded ts last) (hts : Terminated ts)
    (hlast : ∃ e, ts[last]? = some e ∧ e.terminal = .endOfInput) (s : ParseStep) : (x.after s).Bounded ts last := by
  have hin := h.isIn.after s
  cases s with
  | advance =>
    refine ⟨hin, ?_, h.marks, h.furthest⟩
    have hplace := h.place
    show x.state.cursor.advance.index ≤ last
    rw [h.isIn.1.index_advance hts]
    split
    · exact hplace
    · rename_i hend
      -- The token at `last` is not passed, so the current one is in front of it.
      have hne : x.state.cursor.index ≠ last := by
        intro heq
        obtain ⟨e, he, hterminal⟩ := hlast
        rw [← heq, h.isIn.1.current] at he
        obtain rfl := Option.some.inj he
        exact hend hterminal
      omega
  | mark => exact ⟨hin, h.place, List.forall_mem_cons.2 ⟨h.place, h.marks⟩, h.furthest⟩
  | rewind =>
    rw [Stance.after] at hin ⊢
    cases hmarks : x.marks with
    | nil => exact h
    | cons c marks =>
      rw [hmarks] at hin
      have hbounds := h.marks
      rw [hmarks, List.forall_mem_cons] at hbounds
      exact ⟨hin, hbounds.1, hbounds.2, h.furthest⟩
  | forget => exact ⟨hin, h.place, fun c hc => h.marks c (List.mem_of_mem_tail hc), h.furthest⟩
  | enter | leave => exact ⟨hin, h.place, h.marks, h.furthest⟩
  | miss expected =>
    have hmissed : ts[x.state.cursor.index]? = some x.state.cursor.current ∧ x.state.cursor.index ≤ last :=
      ⟨h.isIn.1.current, h.place⟩
    exact ⟨hin, h.place, h.marks,
      Furthest.forall_mem_note (P := fun i t => ts[i]? = some t ∧ i ≤ last) h.furthest hmissed⟩

theorem Bounded.run {last : Nat} (h : x.Bounded ts last) (hts : Terminated ts)
    (hlast : ∃ e, ts[last]? = some e ∧ e.terminal = .endOfInput) (steps : List ParseStep) :
    (x.run steps).Bounded ts last := by
  induction steps generalizing x with
  | nil => exact h
  | cons s steps ih => exact ih (h.after hts hlast s)

/-- A parser at the first place of its stream, which may go back to the places that have been marked. -/
def atStart (tokens : List Token) (marks : List Cursor) : Stance := ⟨⟨.ofTokens tokens, none⟩, [], marks⟩

private theorem bounded_atStart (tokens : List Token) {marks : List Cursor} (last : Nat)
    (hin : ∀ c ∈ marks, c.IsIn (Cursor.ofTokens tokens).tokens) (hmarks : ∀ c ∈ marks, c.index ≤ last) :
    (atStart tokens marks).Bounded (Cursor.ofTokens tokens).tokens last := by
  have hplace : (Cursor.ofTokens tokens).index ≤ last := by cases tokens <;> exact Nat.zero_le last
  exact ⟨⟨Cursor.isIn_ofTokens tokens, hin⟩, hplace, hmarks, nofun⟩

private theorem machine_atStart (tokens : List Token) (marks : List Cursor) (limits : Limits) :
    (atStart tokens marks).machine (Cursor.ofTokens tokens).tokens limits =
      { Machine.start tokens limits with marks := marks.map (·.index) } := by
  cases tokens <;> rfl

end Stance

/-! ### The operations of a parser as runs of the machine -/

/-- The steps of a match lead to the state that it leaves. -/
theorem Stance.run_steps (x : Stance) (p : Pattern) (n : Nat) (limits : Limits) (left : List Tree) :
    x.run (p.steps n ⟨limits, x.rules, left⟩ x.state) =
      { x with state := (p.run n ⟨limits, x.rules, left⟩ x.state).state } :=
  (p.run_followed n ⟨limits, x.rules, left⟩ x.state).ends x.marks

/-- The steps of a parse lead to the place that it leaves the parser at, and to the record that it reports on. -/
theorem Parser.run_steps (p : Parser) (rule : Rule) (marks : List Cursor) :
    Stance.run ⟨⟨p.start, none⟩, [], marks⟩ (p.steps rule) =
      ⟨⟨(p.parseRule rule).2.cursor, furthest (rule.root.matchAt p.limits p.start)⟩, [], marks⟩ := by
  have hroot : Stance.run ⟨⟨p.start, none⟩, [], marks⟩ (rule.root.steps _ _ _) =
      ⟨(rule.root.matchAt p.limits p.start).state, [], marks⟩ :=
    Stance.run_steps ⟨⟨p.start, none⟩, [], marks⟩ rule.root p.limits.maxDepth p.limits []
  rw [steps, parseRule, Stance.run_append, hroot]
  generalize rule.root.matchAt p.limits p.start = reply
  cases reply with
  | matched trees s =>
    rw [Reply.stepsAfter, furthest]
    split <;> rfl
  | mismatch s => rfl
  | fatal o s => rfl

namespace Machine

variable {m : Machine} {c : Cursor}

/-- The stream ends with the end of the input, and the indices are in bounds. -/
structure Intact (m : Machine) : Prop where
  terminated : Terminated m.tokens
  pos : m.pos < m.tokens.length
  marks : ∀ i ∈ m.marks, i < m.tokens.length

theorem isIn_of_cursor? (h : m.cursor? = some c) : c.IsIn m.tokens ∧ c.index = m.pos := by
  unfold cursor? at h
  split at h
  · cases h
  · rename_i hdrop
    obtain rfl := Option.some.inj h
    exact ⟨hdrop, rfl⟩

private theorem cursor?_machine {x : Stance} {ts : List Token} (hx : x.IsIn ts) (limits : Limits) :
    (x.machine ts limits).cursor? = some x.state.cursor := by
  have hdrop : ts.drop x.state.cursor.index = x.state.cursor.current :: x.state.cursor.ahead := hx.1
  simp only [cursor?, Stance.machine, hdrop]

/-- The places of marks. -/
private theorem exists_marks {ts : List Token} {marks : List Nat} (h : ∀ i ∈ marks, i < ts.length) :
    ∃ cs : List Cursor, cs.map (·.index) = marks ∧ ∀ c ∈ cs, c.IsIn ts := by
  induction marks with
  | nil => exact ⟨[], rfl, List.forall_mem_nil _⟩
  | cons i marks ih =>
    rw [List.forall_mem_cons] at h
    obtain ⟨c, hc, rfl⟩ := Cursor.exists_isIn h.1
    obtain ⟨cs, rfl, hcs⟩ := ih h.2
    exact ⟨c :: cs, rfl, List.forall_mem_cons.2 ⟨hc, hcs⟩⟩

/-- A machine with its indices in bounds does what a parser with a cursor does. -/
theorem Intact.exists_stance (h : m.Intact) (hc : m.cursor? = some c) :
    ∃ marks, Stance.IsIn ⟨⟨c, m.furthest⟩, m.rules, marks⟩ m.tokens ∧
      m = Stance.machine ⟨⟨c, m.furthest⟩, m.rules, marks⟩ m.tokens m.limits := by
  obtain ⟨hin, hindex⟩ := isIn_of_cursor? hc
  obtain ⟨marks, hmarks, hall⟩ := exists_marks h.marks
  refine ⟨marks, ⟨hin, hall⟩, ?_⟩
  rw [Stance.machine, hmarks, hindex]

/-- The steps of a match change the index and the record of failures, to those that the match leaves, and nothing
else. -/
theorem Intact.run?_steps (h : m.Intact) (hc : m.cursor? = some c) (p : Pattern) (n : Nat) (left : List Tree) :
    let reply := p.run n ⟨m.limits, m.rules, left⟩ ⟨c, m.furthest⟩
    let m' := { m with pos := reply.state.cursor.index, furthest := reply.state.furthest }
    m.run? (p.steps n ⟨m.limits, m.rules, left⟩ ⟨c, m.furthest⟩) = some m' ∧ m'.cursor? = some reply.state.cursor := by
  intro reply m'
  obtain ⟨marks, hin, hm⟩ := h.exists_stance hc
  have hrun := Stance.run?_machine hin h.terminated m.limits (p.steps n ⟨m.limits, m.rules, left⟩ ⟨c, m.furthest⟩)
  have hstop := hin.run (p.steps n ⟨m.limits, m.rules, left⟩ ⟨c, m.furthest⟩)
  rw [Stance.run_steps ⟨⟨c, m.furthest⟩, m.rules, marks⟩] at hrun hstop
  have hm' : m' = Stance.machine ⟨reply.state, m.rules, marks⟩ m.tokens m.limits := by
    have hmarks : m.marks = marks.map (·.index) := congrArg Machine.marks hm
    simp only [m', hmarks, Stance.machine]
  rw [← hm] at hrun
  exact ⟨hrun.trans (congrArg some hm'.symm), hm' ▸ cursor?_machine hstop m.limits⟩

variable {tokens : List Token}

/-- Whatever is reached does what a parser with a cursor does that is not behind any end of the input. -/
theorem Reachable.exists_bounded (h : m.Reachable tokens) {last : Nat}
    (hlast : ∃ e, (Cursor.ofTokens tokens).tokens[last]? = some e ∧ e.terminal = .endOfInput) :
    ∃ x : Stance, x.Bounded (Cursor.ofTokens tokens).tokens last ∧
      m = x.machine (Cursor.ofTokens tokens).tokens m.limits := by
  have hts := terminated_ofTokens tokens
  induction h with
  | start limits =>
    exact ⟨.atStart tokens [], Stance.bounded_atStart tokens last (List.forall_mem_nil _) (List.forall_mem_nil _),
      (Stance.machine_atStart tokens [] limits).symm⟩
  | step s _ hs ih =>
    obtain ⟨x, hx, hm⟩ := ih
    rw [hm, Stance.after?_machine hx.isIn hts] at hs
    obtain rfl := Option.some.inj hs
    exact ⟨x.after s, hx.after hts hlast s, rfl⟩
  | @restart m _ ih =>
    obtain ⟨x, hx, hm⟩ := ih
    refine ⟨.atStart tokens x.marks, Stance.bounded_atStart tokens last hx.isIn.2 hx.marks, ?_⟩
    rw [Stance.machine_atStart, hm]
    rfl
  | limit limits _ ih =>
    obtain ⟨x, hx, hm⟩ := ih
    exact ⟨x, hx, by rw [hm]; rfl⟩

theorem Reachable.run? {m' : Machine} {steps : List ParseStep} (h : m.Reachable tokens)
    (hrun : m.run? steps = some m') : m'.Reachable tokens := by
  induction steps generalizing m with
  | nil => exact Option.some.inj hrun ▸ h
  | cons s steps ih =>
    obtain ⟨m₁, hstep, hrest⟩ := Option.bind_eq_some_iff.1 hrun
    exact ih (h.step s hstep) hrest

end Machine

/-- A stream that ends with the end of the input has a first one. -/
private theorem Terminated.exists_isLeast {ts : List Token} (h : Terminated ts) :
    ∃ last, IsLeast {i : Nat | ∃ e : Token, ts[i]? = some e ∧ e.terminal = .endOfInput} last := by
  classical
  obtain ⟨e, he, hend⟩ := h
  rw [List.getLast?_eq_getElem?] at he
  exact ⟨_, Nat.isLeast_find ⟨_, e, he, hend⟩⟩

namespace Stance.Bounded

variable {x : Stance} {ts : List Token} {last : Nat}

private theorem intact (h : x.Bounded ts last) (hts : Terminated ts) (limits : Limits) :
    (x.machine ts limits).Intact := by
  refine ⟨hts, h.isIn.1.lt_length, ?_⟩
  intro i hi
  obtain ⟨c, hc, rfl⟩ := List.mem_map.1 hi
  exact (h.isIn.2 c hc).lt_length

private theorem errorPos_le (h : x.Bounded ts last) (limits : Limits) : (x.machine ts limits).errorPos ≤ last := by
  unfold Machine.errorPos
  split
  · rename_i f hf
    exact (h.furthest f hf).2
  · exact h.place

/-- An error is reported at the token of the place where it is reported. -/
theorem errorToken?_eq (h : x.Bounded ts last) (hlast : last < ts.length) (limits : Limits) :
    (x.machine ts limits).errorToken? =
      some (SyntaxError.ofFurthest x.state.furthest x.state.cursor.current).token := by
  have hle := h.errorPos_le limits
  have hmin : min (x.machine ts limits).errorPos (ts.length - 1) = (x.machine ts limits).errorPos := by omega
  show ts[min (x.machine ts limits).errorPos (ts.length - 1)]? = _
  rw [hmin]
  cases hf : x.state.furthest with
  | none =>
    have hpos : (x.machine ts limits).errorPos = x.state.cursor.index := by simp [Machine.errorPos, machine, hf]
    rw [hpos]
    exact h.isIn.1.current
  | some f =>
    have hpos : (x.machine ts limits).errorPos = f.index := by simp [Machine.errorPos, machine, hf]
    rw [hpos]
    exact (h.furthest f hf).1

end Stance.Bounded

namespace Machine

variable {tokens : List Token} {m : Machine}

/-- A parse is a run of the machine from the first token on, and the machine reports an error at the token at which the
parse does. -/
theorem Reachable.run?_parse (h : m.Reachable tokens) (rule : Rule) :
    let p := Parser.ofTokens tokens m.limits
    ∃ m', m.restart.run? (p.steps rule) = some m' ∧ m'.Reachable tokens ∧
      m'.cursor? = some (p.parseRule rule).2.cursor ∧
      ∀ e, (p.parseRule rule).1 = .error (.unexpected e) → m'.errorToken? = some e.token := by
  intro p
  have hts := terminated_ofTokens tokens
  obtain ⟨last, hlast, -⟩ := hts.exists_isLeast
  obtain ⟨x, hx, hm⟩ := h.exists_bounded hlast
  have hstart : m.restart = (Stance.atStart tokens x.marks).machine (Cursor.ofTokens tokens).tokens m.limits := by
    rw [Stance.machine_atStart, hm]
    rfl
  have hbegin := Stance.bounded_atStart tokens last hx.isIn.2 hx.marks
  have hstop := hbegin.run hts hlast (p.steps rule)
  have hends : (Stance.atStart tokens x.marks).run (p.steps rule) = _ := p.run_steps rule x.marks
  have hrun := hstart ▸ Stance.run?_machine hbegin.isIn hts m.limits (p.steps rule)
  refine ⟨_, hrun, h.restart.run? hrun, ?_, ?_⟩
  · rw [cursor?_machine hstop.isIn, hends]
  · intro e he
    have hlength : last < (Cursor.ofTokens tokens).tokens.length := by
      obtain ⟨e, he, -⟩ := hlast
      exact (List.getElem?_eq_some_iff.1 he).1
    rw [hstop.errorToken?_eq hlength, hends]
    have herror : Parser.conclude (rule.root.matchAt p.limits p.start) = .error (.unexpected e) := he
    rw [Parser.eq_of_conclude herror fun _ => Parser.matchAt_root_ne_nil]
    rfl

/-- Whatever has been done with a parser of a list of tokens, it is not behind the first end of the input, and neither
is the place at which it would report an error.  So there is a current token, looking ahead finds a token however far it
goes, there is a token to report an error at, and every step can be taken.  The operations of a parser are made of such
steps: matching a pattern and parsing a rule lead where they lead the parser with a cursor, and from there the same
holds again. -/
theorem Reachable.in_bounds (tokens : List Token) (m : Machine) (h : m.Reachable tokens) :
    m.tokens = (Cursor.ofTokens tokens).tokens ∧
    ∃ (last : Nat) (c : Cursor),
      IsLeast {i : Nat | ∃ e : Token, m.tokens[i]? = some e ∧ e.terminal = .endOfInput} last ∧
      m.pos ≤ last ∧ m.errorPos ≤ last ∧ m.cursor? = some c ∧
      m.current? = some c.current ∧ (∀ n, m.peek? n = some (c.peek n)) ∧
      m.errorToken? = some (SyntaxError.ofFurthest m.furthest c.current).token ∧
      (∀ s, ∃ m', m.after? s = some m') ∧
      (∀ (pattern : Pattern) (left : List Tree), let env : Surroundings := ⟨m.limits, m.rules, left⟩
        ∃ m', m.run? (pattern.steps m.levels env ⟨c, m.furthest⟩) = some m' ∧ m'.Reachable tokens ∧
          m'.cursor? = some (pattern.run m.levels env ⟨c, m.furthest⟩).state.cursor) ∧
      ∀ rule, let p := Parser.ofTokens tokens m.limits
        ∃ m', m.restart.run? (p.steps rule) = some m' ∧ m'.Reachable tokens ∧
          m'.cursor? = some (p.parseRule rule).2.cursor ∧
          ∀ e, (p.parseRule rule).1 = .error (.unexpected e) → m'.errorToken? = some e.token := by
  have hts := terminated_ofTokens tokens
  obtain ⟨last, hleast⟩ := hts.exists_isLeast
  have hlast := hleast.1
  have hparse := h.run?_parse
  obtain ⟨x, hx, hm⟩ := h.exists_bounded hlast
  generalize m.limits = limits at hm hparse
  subst hm
  have hcursor := cursor?_machine hx.isIn limits
  have hlength : last < (Cursor.ofTokens tokens).tokens.length := by
    obtain ⟨e, he, -⟩ := hlast
    exact (List.getElem?_eq_some_iff.1 he).1
  refine ⟨rfl, last, x.state.cursor, hleast, hx.place, hx.errorPos_le limits, hcursor, hx.isIn.1.current,
    hx.isIn.1.peek, hx.errorToken?_eq hlength limits, fun s => ⟨_, Stance.after?_machine hx.isIn hts limits s⟩, ?_,
    hparse⟩
  intro pattern left env
  obtain ⟨hrun, hstop⟩ := (hx.intact hts limits).run?_steps hcursor pattern (Machine.levels _) left
  exact ⟨_, hrun, h.run? hrun, hstop⟩

/-- A list with the end of the input in the middle: the token behind it is not reached, however often the parser goes
on. -/
theorem Reachable.in_bounds_middle :
    let tokens : List Token := [.bare .identifier "a", .bare .endOfInput "", .bare .identifier "b"]
    let m : Machine := { Machine.start tokens (.forDepth 4) with pos := 1 }
    m.Reachable tokens ∧ m.after? .advance = some m ∧ m.peek? 7 = some (.endAt default) ∧
    ∃ last, IsLeast {i : Nat | ∃ e : Token, m.tokens[i]? = some e ∧ e.terminal = .endOfInput} last ∧ m.pos ≤ last ∧
      m.errorPos ≤ last := by
  intro tokens m
  have hreach : m.Reachable tokens := .step .advance (.start (.forDepth 4)) rfl
  obtain ⟨-, last, -, hlast, hpos, herror, -⟩ := Reachable.in_bounds tokens m hreach
  exact ⟨hreach, rfl, rfl, last, hlast, hpos, herror⟩

end Machine

end PlsqlLint
