import PlsqlLint.Grammar.Machine
import PlsqlLint.Proofs.Locality

/-!
# The steps of a parser

What a parser does while it matches a pattern can be told as a list of steps.  `Pattern.steps` lists the steps of a
match, and `Stance.run` takes them, one by one.  They lead from the state before the match to the state behind it, and
leave the rules and the marks as they were (`Pattern.run_followed`).

A place that the parser has been at is not lost when it goes back: where a match ends, the parser is at this place or
behind it, or a failure is noted there.  This is so for patterns that note every mismatch behind something that they
have read (`Pattern.accountable`), hence for all rules.
-/

namespace PlsqlLint

/-! ### Steps -/

/-- A parser between two steps. -/
structure Stance where
  state : ParseState
  /-- The rules that have been entered and not left, the innermost first. -/
  rules : List Rule
  /-- The places that have been marked, the latest first. -/
  marks : List Cursor

namespace Stance

/-- Where a step leads. -/
def after (x : Stance) : ParseStep → Stance
  | .advance => { x with state := x.state.backTo x.state.cursor.advance }
  | .mark => { x with marks := x.state.cursor :: x.marks }
  | .rewind =>
    match x.marks with
    | [] => x
    | c :: marks => { x with state := x.state.backTo c, marks }
  | .forget => { x with marks := x.marks.tail }
  | .enter rule => { x with rules := rule :: x.rules }
  | .leave => { x with rules := x.rules.tail }
  | .miss expected => { x with state := x.state.expecting x.rules expected }

/-- Where steps lead, one after the other. -/
def run (x : Stance) (steps : List ParseStep) : Stance := steps.foldl after x

/-- All that the steps pass, with both ends. -/
def course (x : Stance) : List ParseStep → List Stance
  | [] => [x]
  | m :: steps => x :: (x.after m).course steps

variable {x : Stance} {ms ns : List ParseStep}

@[simp] theorem run_cons (x : Stance) (m : ParseStep) (ms : List ParseStep) :
    x.run (m :: ms) = (x.after m).run ms := rfl

theorem run_append (x : Stance) (ms ns : List ParseStep) : x.run (ms ++ ns) = (x.run ms).run ns := List.foldl_append

theorem mem_course_self (x : Stance) (ms : List ParseStep) : x ∈ x.course ms := by
  cases ms <;> exact List.mem_cons_self

private theorem run_mem_course (x : Stance) (ms : List ParseStep) : x.run ms ∈ x.course ms := by
  induction ms generalizing x with
  | nil => exact List.mem_cons_self
  | cons m ms ih => exact List.mem_cons_of_mem _ (ih (x.after m))

theorem forall_course_cons {P : Stance → Prop} {m : ParseStep} :
    (∀ y ∈ x.course (m :: ms), P y) ↔ P x ∧ ∀ y ∈ (x.after m).course ms, P y := List.forall_mem_cons

/-- What holds all along two runs, one behind the other, holds all along each. -/
private theorem forall_course_append {P : Stance → Prop} :
    (∀ y ∈ x.course (ms ++ ns), P y) ↔ (∀ y ∈ x.course ms, P y) ∧ ∀ y ∈ (x.run ms).course ns, P y := by
  induction ms generalizing x with
  | nil =>
    constructor
    · exact fun h => ⟨List.forall_mem_singleton.2 (h x (x.mem_course_self ns)), h⟩
    · exact And.right
  | cons m ms ih => rw [List.cons_append, forall_course_cons, forall_course_cons, ih, and_assoc, run_cons]

end Stance

/-- The steps, and at last one about the place where they began, which is marked meanwhile. -/
def ParseStep.marked (steps : List ParseStep) (last : ParseStep) : List ParseStep := .mark :: (steps ++ [last])

/-- The steps lead from the one state to the other and leave the rules and the marks as they are.  All places on the way
have the property. -/
structure Route (s : ParseState) (rules : List Rule) (steps : List ParseStep) (P : Nat → Prop) (t : ParseState) :
    Prop where
  ends : ∀ marks, Stance.run ⟨s, rules, marks⟩ steps = ⟨t, rules, marks⟩
  along : ∀ marks, ∀ x ∈ Stance.course ⟨s, rules, marks⟩ steps, P x.state.cursor.index

namespace Route

variable {s t u : ParseState} {rules : List Rule} {ms ns : List ParseStep} {P Q : Nat → Prop}

theorem mono (h : Route s rules ms P t) (hpq : ∀ k, P k → Q k) : Route s rules ms Q t :=
  ⟨h.ends, fun marks x hx => hpq _ (h.along marks x hx)⟩

private theorem start (h : Route s rules ms P t) : P s.cursor.index :=
  h.along [] _ (Stance.mem_course_self _ ms)

private theorem stop (h : Route s rules ms P t) : P t.cursor.index := by
  have hlast := h.along [] _ (Stance.run_mem_course _ ms)
  rwa [h.ends] at hlast

private theorem nil (h : P s.cursor.index) :
    Route s rules [] P s :=
  ⟨fun _ => rfl, fun _ => List.forall_mem_singleton.2 h⟩

private theorem advance (h : P s.cursor.index) (h' : P s.cursor.advance.index) :
    Route s rules [.advance] P (s.backTo s.cursor.advance) :=
  ⟨fun _ => rfl, fun _ => Stance.forall_course_cons.2 ⟨h, List.forall_mem_singleton.2 h'⟩⟩

theorem miss (expected : String) (h : P s.cursor.index) :
    Route s rules [.miss expected] P (s.expecting rules expected) :=
  ⟨fun _ => rfl, fun _ => Stance.forall_course_cons.2 ⟨h, List.forall_mem_singleton.2 h⟩⟩

theorem append (h : Route s rules ms P t) (h' : Route t rules ns P u) : Route s rules (ms ++ ns) P u := by
  refine ⟨fun marks => ?_, fun marks => ?_⟩
  · rw [Stance.run_append, h.ends, h'.ends]
  · rw [Stance.forall_course_append, h.ends]
    exact ⟨h.along marks, h'.along marks⟩

private theorem inside (rule : Rule) (h : Route s (rule :: rules) ms P t) :
    Route s rules (.enter rule :: (ms ++ [.leave])) P t := by
  refine ⟨fun marks => ?_, fun marks => ?_⟩
  · rw [Stance.run_cons, Stance.run_append, Stance.after, h.ends]
    rfl
  · rw [Stance.forall_course_cons, Stance.forall_course_append, Stance.after, h.ends, Stance.forall_course_cons]
    exact ⟨h.start, h.along marks, h.stop, List.forall_mem_singleton.2 h.stop⟩

/-- The place where the steps began is at hand for the last one. -/
private theorem marked {last : ParseStep} (h : Route s rules ms P t)
    (hlast : ∀ marks, Stance.after ⟨t, rules, s.cursor :: marks⟩ last = ⟨u, rules, marks⟩) (hu : P u.cursor.index) :
    Route s rules (ParseStep.marked ms last) P u := by
  refine ⟨fun marks => ?_, fun marks => ?_⟩
  · rw [ParseStep.marked, Stance.run_cons, Stance.run_append, Stance.after, h.ends]
    exact hlast marks
  · rw [ParseStep.marked, Stance.forall_course_cons, Stance.forall_course_append, Stance.after, h.ends,
      Stance.forall_course_cons, hlast]
    exact ⟨h.start, h.along _, h.stop, List.forall_mem_singleton.2 hu⟩

private theorem forget (h : Route s rules ms P t) : Route s rules (ParseStep.marked ms .forget) P t :=
  h.marked (fun _ => rfl) h.stop

private theorem rewind (h : Route s rules ms P t) : Route s rules (ParseStep.marked ms .rewind) P (t.backTo s.cursor) :=
  h.marked (fun _ => rfl) h.start

end Route

/-! ### The steps of a match -/

/-- The steps that a matcher takes where it is used. -/
abbrev Record := Surroundings → ParseState → List ParseStep

namespace Reply

/-- What is done behind a match. -/
def stepsAfter (next : List Tree → ParseState → List ParseStep) : Reply → List ParseStep
  | .matched trees s => next trees s
  | .mismatch _ | .fatal _ _ => []

/-- What is done about the place where a rule was entered. -/
def closing : Reply → ParseStep
  | .matched _ _ => .forget
  | .mismatch _ | .fatal _ _ => .rewind

end Reply

namespace Record

def take (accepted : TokenClass) (expected : String) : Record := fun _ s =>
  if accepted.accepts s.cursor.current then [.advance] else [.miss expected]

def ifRoom (levels wanted : Nat) (a : Record) : Record := fun env s =>
  match Matcher.shortage? levels wanted env s with
  | some _ => []
  | none => a env s

def seq (m : Matcher) (a b : Record) : Record := fun env s => a env s ++ (m env s).stepsAfter fun _ t => b env t

def orElse (m : Matcher) (a b : Record) : Record := fun env s =>
  match m env s with
  | .mismatch t => ParseStep.marked (a env s) .rewind ++ b env (t.backTo s.cursor)
  | .matched _ _ | .fatal _ _ => ParseStep.marked (a env s) .forget

def many (m : Matcher) (a : Record) (env : Surroundings) (s : ParseState) : List ParseStep :=
  match m env s with
  | .mismatch _ => ParseStep.marked (a env s) .rewind
  | .fatal _ _ => ParseStep.marked (a env s) .forget
  | .matched _ t =>
    ParseStep.marked (a env s) .forget ++
      if t.cursor.ahead.length < s.cursor.ahead.length then many m a env t else []
termination_by s.cursor.ahead.length

def within (levels : Nat) (rule : Rule) (m : Matcher) (a : Record) : Record :=
  ifRoom levels 1 fun env s =>
    let inner := { env with rules := rule :: env.rules }
    ParseStep.marked (.enter rule :: (a inner s ++ [.leave])) (m inner s).closing

def only (rule : Rule) (expected : String) (m : Matcher) (a : Record) : Record := fun env s =>
  a env s ++ (m env s).stepsAfter fun trees _ => if trees.all (·.is (.rule rule)) then [] else [.miss expected]

def onto (m : Matcher) (a b : Record) : Record := fun env s =>
  a env s ++ (m env s).stepsAfter fun trees t => b { env with left := trees } t

def links (levels : Nat) (ahead : Lookahead) (m : Matcher) (a : Record) (env : Surroundings) (n : Nat)
    (trees : List Tree) (s : ParseState) : List ParseStep :=
  if s.cursor.sees ahead then
    ifRoom levels n a { env with left := trees } s ++
      match Matcher.ifRoom levels n m { env with left := trees } s with
      | .matched trees t =>
        if t.cursor.ahead.length < s.cursor.ahead.length then links levels ahead m a env (n + 1) trees t else []
      | .mismatch _ | .fatal _ _ => []
  else []
termination_by s.cursor.ahead.length

def chain (levels : Nat) (m : Matcher) (a : Record) (ahead : Lookahead) (link : Matcher) (b : Record) : Record :=
  fun env s => a env s ++ (m env s).stepsAfter (links levels ahead link b env 1)

def closingLabel : Record := fun env s =>
  if s.cursor.current.terminal.isName then
    match Matcher.labelName? env.left with
    | some label => if label.sameText s.cursor.current then [.advance] else [.miss ("label " ++ label.literal)]
    | none => [.miss (Terminal.describe .semicolon)]
  else []

end Record

namespace Pattern

/-- The steps of a match when `n` levels are left; `below` has those of one level deeper. -/
def stepsAt (n : Nat) (below : Pattern → Record) : Pattern → Record
  | .empty, _, _ | .fail, _, _ | .left, _, _ => []
  | .take accepted expected, env, s => Record.take accepted expected env s
  | .advance, _, _ => [.advance]
  | .reject expected, _, _ => [.miss expected]
  | .room wanted, env, s => Record.ifRoom n wanted (fun _ _ => []) env s
  | .seq a b, env, s => Record.seq (a.run n) (stepsAt n below a) (stepsAt n below b) env s
  | .orElse a b, env, s => Record.orElse (a.run n) (stepsAt n below a) (stepsAt n below b) env s
  | .many a, env, s => Record.many (a.run n) (stepsAt n below a) env s
  | .ifNext ahead a b, env, s => if s.cursor.sees ahead then stepsAt n below a env s else stepsAt n below b env s
  | .within rule a, env, s => Record.within n rule (deeper n a) (below a) env s
  | .call rule, env, s => Record.within n rule (deeper n rule.body) (below rule.body) { env with left := [] } s
  | .node _ a, env, s | .collapse _ a, env, s | .last a, env, s => stepsAt n below a env s
  | .only rule expected a, env, s => Record.only rule expected (a.run n) (stepsAt n below a) env s
  | .onto a b, env, s => Record.onto (a.run n) (stepsAt n below a) (stepsAt n below b) env s
  | .chain a ahead link, env, s =>
    Record.chain n (a.run n) (stepsAt n below a) ahead (link.run n) (stepsAt n below link) env s
  | .closingLabel, env, s => Record.closingLabel env s

/-- The steps of a match when `n` levels are left. -/
def steps : Nat → Pattern → Record
  | 0, p, env, s => stepsAt 0 (fun _ _ _ => []) p env s
  | n + 1, p, env, s => stepsAt (n + 1) (steps n) p env s

end Pattern

/-! ### Remembered places -/

/-- The parse is at the place or behind it, or has noted a failure at such a place. -/
def ParseState.Remembers (s : ParseState) (k : Nat) : Prop := k ≤ s.cursor.index ∨ s.Noted k

/-- The reply remembers the place, at a mismatch also after going back to `c`. -/
def Reply.Remembers (c : Cursor) (k : Nat) : Reply → Prop
  | .matched _ t => t.Remembers k
  | .mismatch t => (t.backTo c).Remembers k
  | .fatal _ _ => True

namespace Reply.Grown

variable {r : Reply} {s t : ParseState} {k : Nat} {b : Bool}

/-- What a state remembers, a reply to it remembers. -/
private theorem remembers (h : r.Grown s b) (hs : s.Remembers k) : r.Remembers s.cursor k := by
  cases h with
  | matched hf hle => exact hs.imp hle.trans' (·.kept hf)
  | mismatch hf _ => exact hs.imp id (·.kept hf)
  | fatal _ => trivial

/-- An explained mismatch has noted a failure where it began. -/
theorem noted_of_remembers (h : (Reply.mismatch t).Grown s true) (hr : (t.backTo s.cursor).Remembers k) :
    t.Noted k := by
  rcases hr with hi | hf
  · cases h with
    | mismatch _ he => exact (he rfl).mono hi
  · exact hf

/-- So going back further loses nothing. -/
private theorem remembers_from (h : r.Grown s true) (hr : r.Remembers s.cursor k) (c : Cursor) : r.Remembers c k := by
  cases r with
  | matched xs t => exact hr
  | mismatch t => exact .inr (h.noted_of_remembers hr)
  | fatal o t => trivial

end Reply.Grown

/-- The steps lead to what the reply leaves.  If they are `heedful`, the reply remembers every place on the way. -/
def Reply.Followed (s : ParseState) (rules : List Rule) (steps : List ParseStep) (heedful : Bool) (r : Reply) : Prop :=
  Route s rules steps (fun k => heedful = true → r.Remembers s.cursor k) r.state

namespace Reply.Followed

variable {r : Reply} {s t : ParseState} {rules : List Rule} {ms ns : List ParseStep} {a b e : Bool}

theorem mono (h : r.Followed s rules ms a) (hab : b = true → a = true) : r.Followed s rules ms b :=
  Route.mono h fun _ hk hb => hk (hab hb)

private theorem still (xs : List Tree) : (Reply.matched xs s).Followed s rules [] a := Route.nil fun _ => .inl le_rfl

private theorem fatal (o : Overrun) : (Reply.fatal o s).Followed s rules [] a := Route.nil fun _ => trivial

private theorem advance (xs : List Tree) :
    (Reply.matched xs (s.backTo s.cursor.advance)).Followed s rules [.advance] a :=
  Route.advance (fun _ => .inl s.cursor.index_le_advance) (fun _ => .inl le_rfl)

private theorem miss (expected : String) :
    (Reply.mismatch (s.expecting rules expected)).Followed s rules [.miss expected] a :=
  Route.miss expected fun _ => .inl le_rfl

private theorem after (h : r.Followed s rules ms a) (xs : List Tree) : (r.after xs).Followed s rules ms a := by
  cases r with
  | matched ys t => exact h
  | mismatch t => exact h
  | fatal o t => exact h

/-- A match may yield other trees. -/
private theorem yield (h : r.Followed s rules ms a) (f : List Tree → ParseState → List Tree) :
    (r.andThen fun xs t => .matched (f xs t) t).Followed s rules ms a := by
  cases r with
  | matched xs t => exact h
  | mismatch t => exact h
  | fatal o t => exact h

/-- Going on behind a match.  If what comes then does not match, it has to say why. -/
private theorem append {xs : List Tree} (h : (Reply.matched xs t).Followed s rules ms a) (hr : r.Followed t rules ns b)
    (hg : r.Grown t e) : r.Followed s rules (ms ++ ns) (a && b && e) := by
  have hparts : (a && b && e) = true → a = true ∧ b = true ∧ e = true := by grind
  refine (Route.mono h fun k hk habe => ?_).append (Route.mono hr fun k hk habe => ?_)
  · obtain ⟨ha, -, rfl⟩ := hparts habe
    exact hg.remembers_from (hg.remembers (hk ha)) s.cursor
  · obtain ⟨-, hb, rfl⟩ := hparts habe
    exact hg.remembers_from (hk hb) s.cursor

private theorem andThen (h : r.Followed s rules ms a) {next : List Tree → ParseState → Reply}
    {steps : List Tree → ParseState → List ParseStep} (hn : ∀ xs t, (next xs t).Followed t rules (steps xs t) b)
    (hg : ∀ xs t, (next xs t).Grown t e) :
    (r.andThen next).Followed s rules (ms ++ r.stepsAfter steps) (a && b && e) := by
  cases r with
  | matched xs t => exact h.append (hn xs t) (hg xs t)
  | mismatch t =>
    rw [stepsAfter, List.append_nil]
    exact h.mono (by grind)
  | fatal o t =>
    rw [stepsAfter, List.append_nil]
    exact h.mono (by grind)

/-- Starting again from the same place after a mismatch. -/
private theorem retry (h : (Reply.mismatch t).Followed s rules ms a) (hr : r.Followed (t.backTo s.cursor) rules ns b)
    (hg : r.Grown (t.backTo s.cursor) e) : r.Followed s rules (ParseStep.marked ms .rewind ++ ns) (a && b) := by
  refine ((Route.rewind h).mono fun k hk hab => ?_).append (Route.mono hr fun k hk hab => ?_)
  · exact hg.remembers (hk (Bool.and_eq_true_iff.1 hab).1)
  · exact hk (Bool.and_eq_true_iff.1 hab).2

private theorem forget (h : r.Followed s rules ms a) :
    r.Followed s rules (ParseStep.marked ms .forget) a :=
  Route.forget h

/-- Going back to the place where a rule was entered, unless it matched. -/
private theorem close (h : r.Followed s rules ms a) :
    (r.orBackTo s.cursor).Followed s rules (ParseStep.marked ms r.closing) a := by
  cases r with
  | matched xs t => exact h.forget
  | mismatch t => exact Route.rewind h
  | fatal o t => exact Route.rewind h

end Reply.Followed

/-! ### One matcher after the other -/

/-- The record has the steps of the matcher, wherever it is used. -/
def Matcher.Recorded (heedful : Bool) (m : Matcher) (a : Record) : Prop :=
  ∀ env s, (m env s).Followed s env.rules (a env s) heedful

namespace Matcher.Recorded

variable {a b e : Bool} {ma mb : Matcher} {ra rb : Record} {n : Nat}

private theorem take (k : TokenClass) (expected : String) :
    Recorded true (Matcher.take k expected) (Record.take k expected) := by
  intro env s
  unfold Matcher.take Record.take
  split
  · exact .advance _
  · exact .miss _

private theorem seq (ha : Recorded a ma ra) (hb : Recorded b mb rb) (hg : Grows e mb) :
    Recorded (a && b && e) (Matcher.seq ma mb) (Record.seq ma ra rb) :=
  fun env s => (ha env s).andThen (fun xs t => (hb env t).after xs) (fun xs t => (hg env t).after xs)

private theorem orElse (ha : Recorded a ma ra) (hb : Recorded b mb rb) (hg : Grows e mb) :
    Recorded (a && b) (Matcher.orElse ma mb) (Record.orElse ma ra rb) := by
  intro env s
  have h := ha env s
  unfold Matcher.orElse Record.orElse
  generalize ma env s = r at h ⊢
  cases r with
  | matched xs t => exact h.forget.mono (by grind)
  | mismatch t => exact h.retry (hb env _) (hg env _)
  | fatal o t => exact h.forget.mono (by grind)

private theorem many (ha : Recorded a ma ra) (hg : Grows e ma) : Recorded a (Matcher.many ma) (Record.many ma ra) := by
  intro env s
  induction s using ParseState.ahead_induction with
  | step s ih =>
  have h := ha env s
  rw [Matcher.many, Record.many]
  generalize ma env s = r at h ⊢
  cases r with
  | matched xs t =>
    dsimp only
    split
    · rename_i hlt
      have hnext := h.forget.append ((ih t hlt).after xs) ((hg.many env t).after xs)
      exact hnext.mono (by grind)
    · rw [List.append_nil]
      exact h.forget
  | mismatch t => exact Route.rewind h
  | fatal o t => exact h.forget

private theorem ifRoom (wanted : Nat) (ha : wanted ≤ n → Recorded a ma ra) :
    Recorded a (Matcher.ifRoom n wanted ma) (Record.ifRoom n wanted ra) := by
  intro env s
  unfold Matcher.ifRoom Record.ifRoom
  cases hroom : shortage? n wanted env s with
  | some o => exact .fatal o
  | none => exact ha (le_of_shortage?_eq_none hroom) env s

private theorem within (r : Rule) (ha : 1 ≤ n → Recorded a ma ra) :
    Recorded a (Matcher.within n r ma) (Record.within n r ma ra) :=
  ifRoom 1 fun hn env s => Reply.Followed.close (Route.inside r (ha hn { env with rules := r :: env.rules } s))

private theorem node (r : Rule) (ha : Recorded a ma ra) : Recorded a (Matcher.node r ma) ra :=
  fun env s => (ha env s).yield fun xs t => [.ofRule r xs t.cursor.current.span.start]

private theorem collapse (r : Rule) (ha : Recorded a ma ra) : Recorded a (Matcher.collapse r ma) ra := by
  intro env s
  have h := ha env s
  unfold Matcher.collapse
  generalize ma env s = reply at h ⊢
  cases reply with
  | matched xs t =>
    unfold Reply.andThen
    dsimp only
    split
    · exact h
    · exact h
  | mismatch t => exact h
  | fatal o t => exact h

private theorem call (r : Rule) (ha : 1 ≤ n → Recorded a ma ra) :
    Recorded a (Matcher.call n r ma) fun env s => Record.within n r ma ra { env with left := [] } s := by
  intro env s
  unfold Matcher.call
  split
  · exact collapse r (within r ha) { env with left := [] } s
  · exact node r (within r ha) { env with left := [] } s

private theorem only (r : Rule) (expected : String) (ha : Recorded a ma ra) :
    Recorded a (Matcher.only r expected ma) (Record.only r expected ma ra) := by
  intro env s
  have hnext : ∀ xs t, Reply.Followed t env.rules (if xs.all (·.is (.rule r)) then [] else [.miss expected]) true
      (if xs.all (·.is (.rule r)) then .matched xs t else Matcher.reject expected env t) := by
    intro xs t
    split
    · exact .still xs
    · exact .miss expected
  have hgrown : ∀ xs t, Reply.Grown t true
      (if xs.all (·.is (.rule r)) then .matched xs t else Matcher.reject expected env t) := by
    intro xs t
    split
    · exact .refl t xs
    · exact Grows.reject expected env t
  exact ((ha env s).andThen hnext hgrown).mono (by simp)

private theorem last (ha : Recorded a ma ra) : Recorded a (Matcher.last ma) ra :=
  fun env s => (ha env s).yield fun xs _ => xs.getLast?.toList

private theorem onto (ha : Recorded a ma ra) (hb : Recorded b mb rb) (hg : Grows e mb) :
    Recorded (a && b && e) (Matcher.onto ma mb) (Record.onto ma ra rb) :=
  fun env s => (ha env s).andThen (fun xs t => hb { env with left := xs } t) (fun xs t => hg { env with left := xs } t)

private theorem links (ahead : Lookahead) (hb : Recorded b mb rb) (hg : Grows e mb) (env : Surroundings) (count : Nat)
    (xs : List Tree) (s : ParseState) :
    (Matcher.links n ahead mb env count xs s).Followed s env.rules (Record.links n ahead mb rb env count xs s)
      (b && e) := by
  induction s using ParseState.ahead_induction generalizing xs count with
  | step s ih =>
  have h := ifRoom (n := n) count (fun _ => hb) { env with left := xs } s
  rw [Matcher.links, Record.links]
  split
  · generalize Matcher.ifRoom n count mb { env with left := xs } s = r at h ⊢
    cases r with
    | matched ys t =>
      dsimp only
      split
      · rename_i hlt
        exact (h.append (ih t hlt (count + 1) ys) (hg.links ahead env (count + 1) ys t)).mono (by grind)
      · rw [List.append_nil]
        exact h.mono (by grind)
    | mismatch t =>
      rw [List.append_nil]
      exact h.mono (by grind)
    | fatal o t =>
      rw [List.append_nil]
      exact h.mono (by grind)
  · exact .still xs

private theorem chain (ahead : Lookahead) (ha : Recorded a ma ra) (hb : Recorded b mb rb) (hg : Grows e mb) :
    Recorded (a && b && e) (Matcher.chain n ma ahead mb) (Record.chain n ma ra ahead mb rb) := by
  intro env s
  have hnext := (ha env s).andThen (fun xs t => links (n := n) ahead hb hg env 1 xs t)
    (fun xs t => hg.links (n := n) ahead env 1 xs t)
  exact hnext.mono (by grind)

private theorem closingLabel : Recorded true Matcher.closingLabel Record.closingLabel := by
  intro env s
  unfold Matcher.closingLabel Record.closingLabel
  split
  · cases labelName? env.left with
    | none => exact .miss _
    | some label =>
      dsimp only
      split
      · exact .advance _
      · exact .miss _
  · exact .still _

end Matcher.Recorded

/-! ### Whole patterns -/

namespace Pattern

/-- The steps of patterns one level deeper. -/
def stepsBelow : Nat → Pattern → Record
  | 0 => fun _ _ _ => []
  | n + 1 => steps n

private theorem steps_eq (n : Nat) (p : Pattern) : p.steps n = p.stepsAt n (stepsBelow n) := by
  funext env s
  cases n <;> rfl

/-- The steps of a match lead to what it leaves, and the places on the way are remembered. -/
theorem run_followed (n : Nat) (p : Pattern) : Matcher.Recorded p.accountable (p.run n) (p.steps n) := by
  induction n using Nat.strongRecOn generalizing p with
  | ind n ihn =>
  have hdeep : ∀ q, 1 ≤ n → Matcher.Recorded q.accountable (deeper n q) (stepsBelow n q) := by
    intro q hn
    obtain ⟨k, rfl⟩ : ∃ k, n = k + 1 := ⟨n - 1, by omega⟩
    exact ihn k (by omega) q
  rw [steps_eq]
  induction p with
  | empty | left =>
    rw [run_eq_eval]
    exact fun _ s => .still _
  | take k e =>
    rw [run_eq_eval]
    exact Matcher.Recorded.take k e
  | advance =>
    rw [run_eq_eval]
    exact fun _ _ => .advance _
  | fail =>
    rw [run_eq_eval]
    exact fun _ s => Route.nil fun _ => .inl le_rfl
  | reject e =>
    rw [run_eq_eval]
    exact fun _ _ => .miss e
  | room wanted =>
    rw [run_eq_eval]
    exact Matcher.Recorded.ifRoom wanted fun _ _ _ => .still []
  | seq a b iha ihb => rw [run_seq]; exact iha.seq ihb (b.run_grows n)
  | orElse a b iha ihb => rw [run_orElse]; exact iha.orElse ihb (b.run_grows n)
  | many a iha => rw [run_many]; exact iha.many (a.run_grows n)
  | ifNext ahead a b iha ihb =>
    intro env s
    rw [run_ifNext, ← Cursor.sees_eq_holds, stepsAt]
    split
    · exact (iha env s).mono (by grind [accountable])
    · exact (ihb env s).mono (by grind [accountable])
  | within r a _ => rw [run_within]; exact Matcher.Recorded.within r (hdeep a)
  | node r a iha => rw [run_node]; exact iha.node r
  | collapse r a iha => rw [run_collapse]; exact iha.collapse r
  | call r =>
    rw [run_call]
    intro env s
    exact (Matcher.Recorded.call r (hdeep r.body) env s).mono fun _ => r.accountable_body
  | only r e a iha => rw [run_only]; exact iha.only r e
  | last a iha => rw [run_last]; exact iha.last
  | onto a b iha ihb => rw [run_onto]; exact iha.onto ihb (b.run_grows n)
  | chain a ahead b iha ihb =>
    rw [run_chain]
    exact fun env s => (iha.chain ahead ihb (b.run_grows n) env s).mono (by grind [accountable])
  | closingLabel =>
    rw [run_eq_eval]
    exact Matcher.Recorded.closingLabel

end Pattern

end PlsqlLint
