import PlsqlLint.Grammar.Matching

/-!
# A parser as a machine

A cursor carries the tokens that it points at.  Here a parser is a machine instead, which holds the whole stream and the
index of the current token.  It does one thing at a time (`ParseStep`): it goes on by one token, marks a place and goes
back to it, enters and leaves rules, and notes what it misses.  A step that looks at an index out of bounds leads
nowhere.
-/

namespace PlsqlLint

/-- What a parser does at a time. -/
inductive ParseStep where
  /-- Goes on to the next token. -/
  | advance
  /-- Marks the current place. -/
  | mark
  /-- Goes back to the place that was marked last. -/
  | rewind
  /-- Forgets the place that was marked last. -/
  | forget
  | enter (rule : Rule)
  /-- Leaves the rule that was entered last. -/
  | leave
  /-- Notes that something else was expected at the current token. -/
  | miss (expected : String)
deriving DecidableEq, Repr

/-- A parser as a machine. -/
structure Machine where
  tokens : List Token
  /-- The index of the current token. -/
  pos : Nat
  limits : Limits
  /-- The rules that have been entered and not left, the innermost first. -/
  rules : List Rule
  /-- The furthest failures, if something has been missed. -/
  furthest : Option Furthest
  /-- The indices that have been marked, the latest first. -/
  marks : List Nat

namespace Machine

/-- The machine for a list of tokens before its first step. -/
def start (tokens : List Token) (limits : Limits) : Machine :=
  ⟨(Cursor.ofTokens tokens).tokens, 0, limits, [], none, []⟩

/-- The current token.  There is none if the index is out of bounds. -/
def current? (m : Machine) : Option Token := m.tokens[m.pos]?

/-- The token `n` places ahead, or the last one if there are fewer. -/
def peek? (m : Machine) (n : Nat) : Option Token := m.tokens[min (m.pos + n) (m.tokens.length - 1)]?

/-- The index at which a syntax error is reported. -/
def errorPos (m : Machine) : Nat :=
  match m.furthest with
  | some f => f.index
  | none => m.pos

/-- The token at which a syntax error is reported. -/
def errorToken? (m : Machine) : Option Token := m.tokens[min m.errorPos (m.tokens.length - 1)]?

/-- Where a step leads.  To pass a token, to enter a rule and to miss something takes a look at the current token, and
to forget a mark takes one at the token that was marked, because a node may begin there. -/
def after? (m : Machine) : ParseStep → Option Machine
  | .advance => m.current?.map fun t => if t.terminal = .endOfInput then m else { m with pos := m.pos + 1 }
  | .mark => some { m with marks := m.pos :: m.marks }
  | .rewind =>
    match m.marks with
    | [] => some m
    | i :: marks => some { m with pos := i, marks }
  | .forget =>
    match m.marks with
    | [] => some m
    | i :: marks => m.tokens[i]?.map fun _ => { m with marks }
  | .enter rule => m.current?.map fun _ => { m with rules := rule :: m.rules }
  | .leave => some { m with rules := m.rules.tail }
  | .miss expected =>
    m.current?.map fun t => { m with furthest := Furthest.note m.furthest ⟨m.pos, t, expected, m.rules⟩ }

/-- Where steps lead, one after the other. -/
def run? (m : Machine) : List ParseStep → Option Machine
  | [] => some m
  | s :: steps => (m.after? s).bind (run? · steps)

/-- Back to the first token, outside of any rule and with nothing missed. -/
def restart (m : Machine) : Machine := { m with pos := 0, rules := [], furthest := none }

/-- The levels of rules that are left. -/
def levels (m : Machine) : Nat := m.limits.maxDepth - m.rules.length

/-- The current place, unless it is out of bounds. -/
def cursor? (m : Machine) : Option Cursor :=
  match m.tokens.drop m.pos with
  | [] => none
  | t :: ahead => some ⟨m.pos, t, ahead⟩

end Machine

end PlsqlLint
