import PlsqlLint.Token.Partition

/-!
# Reading a text token by token

A lexer is a place in a text: the characters still to be read and their position.  `Lexer.next` reads the trivia
before the next token and the token; on a fault it stays where the fault was noticed.  `tokenize` reads a whole text
and stops at the first fault.
-/

namespace PlsqlLint

/-- A fault with the place where the offending lexeme starts. -/
structure LexError where
  fault : LexFault
  position : Position
deriving DecidableEq, Repr

namespace LexError

def line (e : LexError) : Nat := e.position.line

def column (e : LexError) : Nat := e.position.column

/-- The wording of a lexical error. -/
def message (e : LexError) : String :=
  let place := s!"at line {e.line}, column {e.column}"
  match e.fault with
  | .unexpectedCharacter c => "Unexpected character '" ++ c.toString ++ "' " ++ place
  | .unterminatedString => "Unterminated string literal starting " ++ place
  | .unterminatedQuotedIdentifier => "Unterminated quoted identifier starting " ++ place
  | .unterminatedComment => "Unterminated comment starting " ++ place

end LexError

/-- What is left of a text, and where it starts. -/
structure Lexer where
  rest : List Char
  position : Position
deriving Repr

namespace Lexer

/-- The lexer at the beginning of a text. -/
def ofText (text : String) : Lexer := ⟨text.toList, .start⟩

/-- The lexer behind a lexeme. -/
def past {α : Type} (lexer : Lexer) (lexeme : Lexeme α) : Lexer :=
  ⟨lexeme.rest, lexer.position.after lexeme.taken⟩

/-- Reads the blanks and comments before the next token. -/
def trivia (lexer : Lexer) : Except LexError (List Trivia) × Lexer :=
  match _h : Lexeme.trivia? lexer.rest with
  | none => (.ok [], lexer)
  | some lexeme =>
    match lexeme.found with
    | .error fault => (.error ⟨fault, lexer.position⟩, lexer.past lexeme)
    | .ok kind =>
      match trivia (lexer.past lexeme) with
      | (.ok pieces, behind) =>
        let span := ⟨lexer.position, (lexer.past lexeme).position⟩
        (.ok (⟨kind, String.ofList lexeme.taken, span⟩ :: pieces), behind)
      | (.error e, behind) => (.error e, behind)
termination_by lexer.rest.length
decreasing_by exact Lexeme.trivia?_rest_lt _h

private theorem trivia_rest_le (lexer : Lexer) : lexer.trivia.2.rest.length ≤ lexer.rest.length := by
  fun_induction trivia lexer with
  | case1 => exact Nat.le_refl _
  | case2 lexer lexeme h => exact Nat.le_of_lt (Lexeme.trivia?_rest_lt h)
  | case3 lexer lexeme h _ _ pieces behind ht _ ih =>
    rw [ht] at ih
    exact Nat.le_trans ih (Nat.le_of_lt (Lexeme.trivia?_rest_lt h))
  | case4 lexer lexeme h _ _ e behind ht ih =>
    rw [ht] at ih
    exact Nat.le_trans ih (Nat.le_of_lt (Lexeme.trivia?_rest_lt h))

/-- Reads the next token with its trivia. -/
def next (lexer : Lexer) : Except LexError Token × Lexer :=
  match lexer.trivia with
  | (.error e, behind) => (.error e, behind)
  | (.ok trivia, start) =>
    let lexeme := Lexeme.token start.rest
    let behind := start.past lexeme
    match lexeme.found with
    | .error fault => (.error ⟨fault, start.position⟩, behind)
    | .ok terminal =>
      (.ok ⟨terminal, String.ofList lexeme.taken, ⟨start.position, behind.position⟩, trivia⟩, behind)

/-- A token that is not the end of the input leaves less to read. -/
theorem next_rest_lt {lexer behind : Lexer} {token : Token} (h : lexer.next = (.ok token, behind))
    (hend : token.terminal ≠ .endOfInput) : behind.rest.length < lexer.rest.length := by
  have hle := trivia_rest_le lexer
  unfold next at h
  split at h
  · cases h
  · rename_i trivia start ht
    rw [ht] at hle
    dsimp only at h
    split at h
    · cases h
    · rename_i terminal hf
      cases h
      exact Nat.lt_of_lt_of_le (Lexeme.token_rest_lt hf hend) hle

/-- Reads the tokens up to the end of the input, that end included. -/
def tokens (lexer : Lexer) : Except LexError (List Token) :=
  match _h : lexer.next with
  | (.error e, _) => .error e
  | (.ok token, behind) =>
    if _hend : token.terminal = .endOfInput then .ok [token]
    else
      match tokens behind with
      | .ok rest => .ok (token :: rest)
      | .error e => .error e
termination_by lexer.rest.length
decreasing_by exact next_rest_lt _h _hend

end Lexer

/-- The tokens of a text, the end of the input last. -/
def tokenize (text : String) : Except LexError (List Token) := (Lexer.ofText text).tokens

end PlsqlLint
