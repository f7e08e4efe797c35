import PlsqlLint.Grammar.ParseError
import PlsqlLint.Grammar.Production
import PlsqlLint.Tree.Basic

/-!
# Matching patterns

`Pattern.run` matches a pattern at a place in a stream of tokens.  The reply says whether it matched, with the trees
it yields, and where the cursor is then.  Where a pattern does not match, the caller may try something else; a bound
on nesting that is exceeded ends the parse.

Recursion is on the levels of nesting that are left and, on one level, on the pattern.  A repetition goes on only
behind what it has read.
-/

namespace PlsqlLint

/-- How many bytes of stack a parse uses within rules, the innermost first, at the token of an index.  That is up to the
compiled program, so it is left open. -/
abbrev StackUse := List Rule → Nat → Nat

/-- The bounds on nesting, with the use of the stack that one of them is about. -/
structure Limits where
  /-- How many rules may be nested. -/
  maxDepth : Nat
  /-- How many bytes of stack a parse may use. -/
  stackBudget : Nat
  stackUse : StackUse

namespace Limits

/-- How many rules may be nested, unless another bound is asked for. -/
def defaultDepth : Nat := 512

/-- How many bytes of stack a parse may use, unless another budget is asked for. -/
def defaultBudget : Nat := 1536 * 1024

/-- The bounds of a parse that does not ask for others. -/
def default (use : StackUse) : Limits := ⟨defaultDepth, defaultBudget, use⟩

/-- The budget is enough for as many rules as may be nested. -/
def Ample (l : Limits) : Prop := ∀ rules index, rules.length ≤ l.maxDepth → l.stackUse rules index ≤ l.stackBudget

end Limits

/-- What a pattern knows of its surroundings. -/
structure Surroundings where
  limits : Limits
  /-- The rules that are being matched, the innermost first. -/
  rules : List Rule
  /-- What the operand in front has yielded. -/
  left : List Tree

/-- The state of a parse: the place reached and the furthest failures so far, if there are any. -/
structure ParseState where
  cursor : Cursor
  furthest : Option Furthest

namespace ParseState

/-- Back to another place; the furthest failures stay. -/
def backTo (s : ParseState) (cursor : Cursor) : ParseState := { s with cursor }

/-- Notes what was expected at the current token. -/
def expecting (s : ParseState) (rules : List Rule) (expected : String) : ParseState :=
  { s with furthest := Furthest.note s.furthest ⟨s.cursor.index, s.cursor.current, expected, rules⟩ }

end ParseState

/-- The outcome of matching a pattern, with the state that it leaves. -/
inductive Reply where
  | matched (trees : List Tree) (state : ParseState)
  | mismatch (state : ParseState)
  | fatal (overrun : Overrun) (state : ParseState)

namespace Reply

def state : Reply → ParseState
  | .matched _ s | .mismatch s | .fatal _ s => s

/-- Goes on with the trees of a match. -/
@[inline] def andThen (r : Reply) (next : List Tree → ParseState → Reply) : Reply :=
  match r with
  | .matched trees s => next trees s
  | .mismatch s => .mismatch s
  | .fatal o s => .fatal o s

/-- Puts trees that came before in front. -/
@[inline] def after (trees : List Tree) (r : Reply) : Reply :=
  match r with
  | .matched more s => .matched (trees ++ more) s
  | .mismatch s => .mismatch s
  | .fatal o s => .fatal o s

/-- Goes back to a place unless there was a match. -/
@[inline] def orBackTo (cursor : Cursor) (r : Reply) : Reply :=
  match r with
  | .matched trees s => .matched trees s
  | .mismatch s => .mismatch (s.backTo cursor)
  | .fatal o s => .fatal o (s.backTo cursor)

end Reply

/-- How a pattern is matched in given surroundings. -/
abbrev Matcher := Surroundings → ParseState → Reply

namespace Matcher

/-- The bound that forbids `wanted` levels more when `levels` are left: the bound on rules, or else the budget of stack
if more is in use already. -/
def shortage? (levels wanted : Nat) (env : Surroundings) (s : ParseState) : Option Overrun :=
  let token := s.cursor.current
  if levels < wanted then some ⟨.depth env.limits.maxDepth, token.line, token.column⟩
  else if env.limits.stackBudget < env.limits.stackUse env.rules s.cursor.index then
    some ⟨.stack env.limits.stackBudget, token.line, token.column⟩
  else none

/-- Goes on if `wanted` levels more are allowed. -/
@[inline] def ifRoom (levels wanted : Nat) (m : Matcher) : Matcher := fun env s =>
  match shortage? levels wanted env s with
  | some o => .fatal o s
  | none => m env s

@[inline] def advance : Matcher := fun _ s => .matched [.leaf s.cursor.current] (s.backTo s.cursor.advance)

@[inline] def reject (expected : String) : Matcher := fun env s => .mismatch (s.expecting env.rules expected)

@[inline] def take (accepted : TokenClass) (expected : String) : Matcher := fun env s =>
  if accepted.accepts s.cursor.current then advance env s else reject expected env s

@[inline] def seq (a b : Matcher) : Matcher := fun env s =>
  (a env s).andThen fun trees s => (b env s).after trees

@[inline] def orElse (a b : Matcher) : Matcher := fun env s =>
  match a env s with
  | .mismatch s' => b env (s'.backTo s.cursor)
  | reply => reply

def many (m : Matcher) (env : Surroundings) (s : ParseState) : Reply :=
  match m env s with
  | .mismatch s' => .matched [] (s'.backTo s.cursor)
  | .fatal o s' => .fatal o s'
  | .matched trees s' =>
    if s'.cursor.ahead.length < s.cursor.ahead.length then (many m env s').after trees else .matched trees s'
termination_by s.cursor.ahead.length

@[inline] def within (levels : Nat) (rule : Rule) (m : Matcher) : Matcher :=
  ifRoom levels 1 fun env s => (m { env with rules := rule :: env.rules } s).orBackTo s.cursor

@[inline] def node (rule : Rule) (m : Matcher) : Matcher := fun env s =>
  (m env s).andThen fun trees s => .matched [.ofRule rule trees s.cursor.current.span.start] s

@[inline] def collapse (rule : Rule) (m : Matcher) : Matcher := fun env s =>
  (m env s).andThen fun trees s =>
    match trees with
    | [tree] => .matched [tree] s
    | trees => .matched [.ofRule rule trees s.cursor.current.span.start] s

/-- A node of the rule over what its body yields. -/
@[inline] def call (levels : Nat) (rule : Rule) (body : Matcher) : Matcher := fun env s =>
  if rule.collapses then collapse rule (within levels rule body) { env with left := [] } s
  else node rule (within levels rule body) { env with left := [] } s

@[inline] def only (rule : Rule) (expected : String) (m : Matcher) : Matcher := fun env s =>
  (m env s).andThen fun trees s =>
    if trees.all (·.is (.rule rule)) then .matched trees s else reject expected env s

@[inline] def last (m : Matcher) : Matcher := fun env s =>
  (m env s).andThen fun trees s => .matched trees.getLast?.toList s

@[inline] def onto (operand tail : Matcher) : Matcher := fun env s =>
  (operand env s).andThen fun trees s => tail { env with left := trees } s

/-- Matches links onto `trees` while they are ahead; the `n`-th link takes `n` levels of the tree. -/
def links (levels : Nat) (ahead : Lookahead) (link : Matcher) (env : Surroundings) (n : Nat) (trees : List Tree)
    (s : ParseState) : Reply :=
  if s.cursor.sees ahead then
    match ifRoom levels n link { env with left := trees } s with
    | .matched trees s' =>
      if s'.cursor.ahead.length < s.cursor.ahead.length then links levels ahead link env (n + 1) trees s'
      else .matched trees s'
    | reply => reply
  else .matched trees s
termination_by s.cursor.ahead.length

@[inline] def chain (levels : Nat) (operand : Matcher) (ahead : Lookahead) (link : Matcher) : Matcher :=
  fun env s => (operand env s).andThen (links levels ahead link env 1)

/-- The name that a label gives. -/
def labelName? (trees : List Tree) : Option Token :=
  trees.head?.bind fun label => label.children[1]?.bind Tree.token?

def closingLabel : Matcher := fun env s =>
  if s.cursor.current.terminal.isName then
    match labelName? env.left with
    | some label =>
      if label.sameText s.cursor.current then advance env s else reject ("label " ++ label.literal) env s
    | none => reject (Terminal.describe .semicolon) env s
  else .matched [] s

end Matcher

namespace Pattern

/-- Matches a pattern when `levels` levels are left; `below` matches patterns one level deeper. -/
def eval (levels : Nat) (below : Pattern → Matcher) : Pattern → Matcher
  | .empty, _, s => .matched [] s
  | .take accepted expected, env, s => Matcher.take accepted expected env s
  | .advance, env, s => Matcher.advance env s
  | .fail, _, s => .mismatch s
  | .reject expected, env, s => Matcher.reject expected env s
  | .room wanted, env, s => Matcher.ifRoom levels wanted (fun _ s => .matched [] s) env s
  | .seq a b, env, s => Matcher.seq (eval levels below a) (eval levels below b) env s
  | .orElse a b, env, s => Matcher.orElse (eval levels below a) (eval levels below b) env s
  | .many a, env, s => Matcher.many (eval levels below a) env s
  | .ifNext ahead a b, env, s =>
    if s.cursor.sees ahead then eval levels below a env s else eval levels below b env s
  | .within rule a, env, s => Matcher.within levels rule (below a) env s
  | .node rule a, env, s => Matcher.node rule (eval levels below a) env s
  | .collapse rule a, env, s => Matcher.collapse rule (eval levels below a) env s
  | .call rule, env, s => Matcher.call levels rule (below rule.body) env s
  | .only rule expected a, env, s => Matcher.only rule expected (eval levels below a) env s
  | .last a, env, s => Matcher.last (eval levels below a) env s
  | .onto a b, env, s => Matcher.onto (eval levels below a) (eval levels below b) env s
  | .left, env, s => .matched env.left s
  | .chain a ahead link, env, s =>
    Matcher.chain levels (eval levels below a) ahead (eval levels below link) env s
  | .closingLabel, env, s => Matcher.closingLabel env s

/-- Matches a pattern when `levels` levels are left. -/
def run : Nat → Pattern → Matcher
  | 0, p, env, s => eval 0 (fun _ _ s => .mismatch s) p env s
  | levels + 1, p, env, s => eval (levels + 1) (run levels) p env s

/-- How patterns are matched one level deeper. -/
def deeper : Nat → Pattern → Matcher
  | 0 => fun _ _ s => .mismatch s
  | n + 1 => run n

/-- Matches a pattern at a place, outside of any rule. -/
def matchAt (p : Pattern) (limits : Limits) (cursor : Cursor) : Reply :=
  p.run limits.maxDepth ⟨limits, [], []⟩ ⟨cursor, none⟩

end Pattern

end PlsqlLint
