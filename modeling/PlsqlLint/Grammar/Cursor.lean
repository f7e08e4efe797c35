import PlsqlLint.Token.Basic

/-!
# A place in a stream of tokens

A stream of tokens has at least one token, the end of the input, which is never passed.  A cursor is a place in it:
the token at the place, the tokens ahead, and how many lie behind.
-/

namespace PlsqlLint

/-- A place in a stream of tokens. -/
structure Cursor where
  /-- The number of tokens behind the place. -/
  index : Nat
  current : Token
  ahead : List Token
deriving Repr

namespace Cursor

/-- What has to be added behind the last token of a list to close the stream. -/
def closing (last : Token) : List Token :=
  if last.terminal = .endOfInput then [] else [.endAt last.span.stop]

/-- The first place of a stream.  If the list does not end with the end of the input, that is added. -/
def ofTokens : List Token → Cursor
  | [] => ⟨0, .endAt default, []⟩
  | t :: ts => ⟨0, t, ts ++ closing (ts.getLastD t)⟩

/-- The tokens from the place on. -/
def tokens (c : Cursor) : List Token := c.current :: c.ahead

/-- The token `n` places ahead, or the last one if there are fewer. -/
def peek (c : Cursor) : Nat → Token
  | 0 => c.current
  | n + 1 => c.ahead[n]?.getD (c.ahead.getLastD c.current)

/-- Whether the place is the end of the input. -/
def atEnd (c : Cursor) : Bool := c.current.terminal == .endOfInput

/-- The next place.  The end of the input is not passed. -/
def advance (c : Cursor) : Cursor :=
  if c.atEnd then c
  else
    match c.ahead with
    | [] => c
    | t :: ts => ⟨c.index + 1, t, ts⟩

end Cursor

end PlsqlLint
