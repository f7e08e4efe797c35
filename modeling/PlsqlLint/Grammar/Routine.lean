import PlsqlLint.Grammar.Matching

/-!
# Rules with a loop

The body of a rule can be written as a routine, which works on a frame with the trees collected so far, a flag, and the
state of the parse.

`OrderBy.looped` is the clause `ORDER BY` with one loop for its items.  A round takes a comma unless the flag says that
it is the first, then an item, and lowers the flag at its end.  Where a round does not match, the place and the trees
are taken back, and the flag is not.  The clause does not match if the flag is still up behind the loop.
-/

namespace PlsqlLint

/-! ### Routines -/

/-- What the body of a rule works on: the trees that it has collected, a flag, and the state of the parse. -/
structure Frame where
  trees : List Tree
  first : Bool
  state : ParseState

/-- How a routine ends. -/
inductive Ending where
  | done
  | mismatch
  | fatal (overrun : Overrun)

/-- A part of the body of a rule, as steps on a frame. -/
abbrev Routine := Surroundings → Frame → Ending × Frame

namespace Routine

/-- Collects what a matcher yields. -/
def push (m : Matcher) : Routine := fun env f =>
  match m env f.state with
  | .matched xs s => (.done, { f with trees := f.trees ++ xs, state := s })
  | .mismatch s => (.mismatch, { f with state := s })
  | .fatal o s => (.fatal o, { f with state := s })

/-- One routine and then another, if the first is done. -/
def andThen (a b : Routine) : Routine := fun env f =>
  match a env f with
  | (.done, g) => b env g
  | ended => ended

/-- The routine where the condition holds, else nothing. -/
def onlyIf (condition : Frame → Bool) (a : Routine) : Routine := fun env f =>
  if condition f then a env f else (.done, f)

/-- Lowers the flag. -/
def lower : Routine := fun _ f => (.done, { f with first := false })

/-- Round after round, until one does not match or reads nothing.  From a round that does not match, the place and the
trees are taken back, but not the flag. -/
def repeated (round : Routine) (env : Surroundings) (f : Frame) : Ending × Frame :=
  match round env f with
  | (.done, g) =>
    if g.state.cursor.ahead.length < f.state.cursor.ahead.length then repeated round env g else (.done, g)
  | (.mismatch, g) => (.done, ⟨g.trees.take f.trees.length, g.first, g.state.backTo f.state.cursor⟩)
  | (.fatal o, g) => (.fatal o, g)
termination_by f.state.cursor.ahead.length

/-- The routine as the body of a rule: without any trees at first, and with the flag up. -/
def matcher (a : Routine) : Matcher := fun env s =>
  match a env ⟨[], true, s⟩ with
  | (.done, f) => .matched f.trees f.state
  | (.mismatch, f) => .mismatch f.state
  | (.fatal o, f) => .fatal o f.state

end Routine

/-! ### The items of `ORDER BY` -/

namespace OrderBy

open Pattern Routine

/-- An item: an expression and a direction, if there is one. -/
def item : Pattern := sequence [expression, maybeEither "ASC" "DESC"]

/-- Whether a direction is next. -/
def seesDirection (f : Frame) : Bool := f.state.cursor.sees [[.word "ASC"], [.word "DESC"]]

/-- Takes an expression, and a direction if there is one.  Then the flag is lowered. -/
def takeItem (read : Pattern → Matcher) : Routine :=
  andThen (push (read expression)) (andThen (onlyIf seesDirection (push Matcher.advance)) lower)

/-- A round of the loop: a comma unless it is the first round, and an item. -/
def itemRound (read : Pattern → Matcher) : Routine :=
  andThen (onlyIf (!·.first) (push (read (terminal .comma)))) (takeItem read)

/-- What is behind `ORDER BY`: the loop, in which at least one round has to match. -/
def itemLoop (read : Pattern → Matcher) : Routine :=
  andThen (repeated (itemRound read)) (onlyIf (·.first) (push (Matcher.reject "expression")))

/-- The body of the clause with the loop. -/
def loopBody (read : Pattern → Matcher) : Routine :=
  andThen (push (read (keyword .ORDER))) (andThen (push (read (keyword .BY))) (itemLoop read))

/-- The clause with the loop as its body, when `n` levels are left. -/
def looped (n : Nat) : Matcher := Matcher.call n .orderByClause (loopBody (deeper n)).matcher

end OrderBy

end PlsqlLint
