import PlsqlLint.Token.Basic
import PlsqlLint.Tree.Symbol

/-!
# Why a parse fails

Either the tokens do not fit the grammar, which is reported at the furthest place where something was expected, or
one of the limits on nesting is exceeded.
-/

namespace PlsqlLint

/-- An expectation that a token did not meet. -/
structure Failure where
  /-- The place of the token in the stream. -/
  index : Nat
  token : Token
  expected : String
  /-- The rules that were being matched, the innermost first. -/
  rules : List Rule
deriving Repr

/-- The furthest failures of a parse so far, which are all at one place. -/
structure Furthest where
  /-- The place in the stream. -/
  index : Nat
  token : Token
  /-- What was expected there, the earliest first. -/
  expected : List String
  /-- The rules that were being matched at the first of the failures, the innermost first. -/
  rules : List Rule
deriving DecidableEq, Repr

/-- Notes a failure.  In front of the furthest ones it is ignored.  At the same place, what was expected is added unless
it is known already.  Behind them, the failure takes their place. -/
def Furthest.note (furthest : Option Furthest) (f : Failure) : Option Furthest :=
  match furthest with
  | some old =>
    if f.index < old.index then some old
    else if old.index = f.index then
      if f.expected ∈ old.expected then some old else some { old with expected := old.expected ++ [f.expected] }
    else some ⟨f.index, f.token, [f.expected], f.rules⟩
  | none => some ⟨f.index, f.token, [f.expected], f.rules⟩

/-- Tokens that do not fit the grammar: the token in question, what was expected instead, and the rules that were
being matched, the outermost first. -/
structure SyntaxError where
  token : Token
  expected : List String
  rules : List Rule
deriving DecidableEq, Repr

namespace SyntaxError

/-- What stands at the place of the error. -/
def found (e : SyntaxError) : String :=
  if e.token.terminal = .endOfInput then e.token.terminal.describe else "'" ++ e.token.literal ++ "'"

/-- The expectations in one phrase. -/
def expectation (e : SyntaxError) : String := " or ".intercalate e.expected

/-- The names of the rules, the outermost first. -/
def path (e : SyntaxError) : String := " > ".intercalate (e.rules.map Rule.name)

/-- The report on the furthest failures of a parse.  Without any failure, the end of the input was expected at
`token`. -/
def ofFurthest (furthest : Option Furthest) (token : Token) : SyntaxError :=
  match furthest with
  | some f => ⟨f.token, f.expected, f.rules.reverse⟩
  | none => ⟨token, [Terminal.describe .endOfInput], []⟩

end SyntaxError

/-- A bound on nesting. -/
inductive Bound where
  /-- At most so many rules may be nested. -/
  | depth (limit : Nat)
  /-- At most so many bytes of stack may be used. -/
  | stack (budget : Nat)
deriving DecidableEq, Repr

/-- A bound that was exceeded at a place. -/
structure Overrun where
  bound : Bound
  line : Nat
  column : Nat
deriving DecidableEq, Repr

/-- Why a parse fails. -/
inductive ParseError where
  | unexpected (error : SyntaxError)
  | overrun (overrun : Overrun)
deriving DecidableEq, Repr

namespace ParseError

def line : ParseError → Nat
  | .unexpected e => e.token.line
  | .overrun o => o.line

def column : ParseError → Nat
  | .unexpected e => e.token.column
  | .overrun o => o.column

/-- The names of the rules that were being matched; none for a bound. -/
def path : ParseError → String
  | .unexpected e => e.path
  | .overrun _ => ""

/-- The wording of a parse error. -/
def message (e : ParseError) : String :=
  let place := s!" at line {e.line}, column {e.column}"
  match e with
  | .unexpected e => "Syntax error" ++ place ++ ": expected " ++ e.expectation ++ ", found " ++ e.found
  | .overrun ⟨.depth limit, _, _⟩ => s!"Nesting deeper than {limit} grammar rules" ++ place
  | .overrun ⟨.stack budget, _, _⟩ => s!"Nesting needs more than {budget} bytes of parser stack" ++ place

end ParseError

end PlsqlLint
