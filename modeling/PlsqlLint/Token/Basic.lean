import PlsqlLint.Text.Caseless
import PlsqlLint.Text.Position
import PlsqlLint.Token.Terminal

/-!
# Tokens

A token is a terminal together with the text that spells it, the place of that text, and the blanks and comments
before it.  Two tokens have the same text if they agree up to the case rules of the language
(`Token.sameText`): reserved words and plain names are compared without regard to case, quoted names and strings as
they stand.
-/

namespace PlsqlLint

/-- What may stand between tokens. -/
inductive TriviaKind where
  | whitespace | lineComment | blockComment
deriving DecidableEq, Repr

namespace TriviaKind

def name : TriviaKind → String
  | .whitespace => "Whitespace"
  | .lineComment => "LineComment"
  | .blockComment => "BlockComment"

end TriviaKind

/-- A run of blanks or a comment. -/
structure Trivia where
  kind : TriviaKind
  text : String
  span : Span
deriving DecidableEq, Repr

/-- A terminal with its text and its place.  The trivia stand before the text; those of the token at the end of the
input are the last of the source. -/
structure Token where
  terminal : Terminal
  literal : String
  span : Span
  trivia : List Trivia
deriving DecidableEq, Repr

namespace Token

def line (t : Token) : Nat := t.span.start.line

def column (t : Token) : Nat := t.span.start.column

/-- A token in messages: the name of its terminal and its text. -/
def text (t : Token) : String := t.terminal.name ++ "(" ++ t.literal ++ ")"

/-- Whether the token is the unreserved word `word`. -/
def isWord (t : Token) (word : String) : Bool := t.terminal == .identifier && sameCaseless t.literal word

/-- Equality of tokens up to place, trivia and the case rules of the language. -/
def sameText (a b : Token) : Bool :=
  a.terminal == b.terminal &&
    if a.terminal.isCaseless then sameCaseless a.literal b.literal else a.literal == b.literal

/-- The token that marks the end of the input at a position. -/
def endAt (p : Position) : Token := ⟨.endOfInput, "", .empty p, []⟩

end Token

end PlsqlLint
