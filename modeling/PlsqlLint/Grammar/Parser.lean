import PlsqlLint.Grammar.Matching
import PlsqlLint.Token.Lexer

/-!
# Parsing

A parser holds a stream of tokens, a place in it and the bounds on nesting.  `Parser.parseRule` starts over at the
first token and matches a rule with the whole stream; `Parser.apply` matches any pattern at the current place.  Both
leave the parser at the place that was reached.
-/

namespace PlsqlLint

/-- A stream of tokens that is being parsed. -/
structure Parser where
  /-- The first place of the stream. -/
  start : Cursor
  /-- The current place. -/
  cursor : Cursor
  limits : Limits

namespace Parser

/-- The parser of a list of tokens. -/
def ofTokens (tokens : List Token) (limits : Limits) : Parser :=
  ⟨.ofTokens tokens, .ofTokens tokens, limits⟩

/-- The parser of a text. -/
def ofText (text : String) (limits : Limits) : Except LexError Parser :=
  match tokenize text with
  | .ok tokens => .ok (ofTokens tokens limits)
  | .error e => .error e

/-- All tokens of the stream. -/
def tokens (p : Parser) : List Token := p.start.tokens

/-- Matches a pattern at the current place. -/
def apply (p : Parser) (pattern : Pattern) : Reply × Parser :=
  let reply := pattern.matchAt p.limits p.cursor
  (reply, { p with cursor := reply.state.cursor })

/-- The result of matching a root pattern, which has to reach the end of the input. -/
def conclude : Reply → Except ParseError Tree
  | .matched (tree :: _) s =>
    if s.cursor.atEnd then .ok tree
    else
      let s := s.expecting [] (Terminal.describe .endOfInput)
      .error (.unexpected (.ofFurthest s.furthest s.cursor.current))
  | .matched [] s | .mismatch s => .error (.unexpected (.ofFurthest s.furthest s.cursor.current))
  | .fatal o _ => .error (.overrun o)

/-- Parses the whole stream as the rule. -/
def parseRule (p : Parser) (rule : Rule) : Except ParseError Tree × Parser :=
  let reply := rule.root.matchAt p.limits p.start
  (conclude reply, { p with cursor := reply.state.cursor })

/-- Parses the whole stream as a unit. -/
def parse (p : Parser) : Except ParseError Tree × Parser := p.parseRule .fileInput

end Parser

/-- Whether the text can be read as the rule. -/
def matchesRule (use : StackUse) (text : String) (rule : Rule) : Bool :=
  match Parser.ofText text (.default use) with
  | .ok p => (p.parseRule rule).1.isOk
  | .error _ => false

end PlsqlLint
