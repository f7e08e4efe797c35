import PlsqlLint.Token.Lexer

/-!
# The loops that read a text

A text is read by two loops.  The outer one calls for a token until the end of the input is found; the inner one, with
which each call begins, takes blanks and comments until there are no more.  They are given here round by round, without
the measure by which `Lexer.trivia` and `Lexer.tokens` recur.
-/

namespace PlsqlLint

/-- What a round of a loop comes to: another round from the state that it leaves, or the end of the loop. -/
inductive Round (σ ρ : Type) where
  | again (state : σ)
  | done (result : ρ)

namespace Round

variable {σ ρ : Type}

/-- The result of a loop, if it ends within so many rounds. -/
def run (round : σ → Round σ ρ) : Nat → σ → Option ρ
  | 0, _ => none
  | n + 1, s =>
    match round s with
    | .again t => run round n t
    | .done result => some result

end Round

namespace Lexer

/-- A round of the loop that collects trivia: a run of blanks or a comment is taken.  The loop ends where there is none,
and at a comment without an end. -/
def triviaRound : List Trivia × Lexer → Round (List Trivia × Lexer) (Except LexError (List Trivia) × Lexer)
  | (pieces, lexer) =>
    match Lexeme.trivia? lexer.rest with
    | none => .done (.ok pieces, lexer)
    | some lexeme =>
      let behind := lexer.past lexeme
      match lexeme.found with
      | .error fault => .done (.error ⟨fault, lexer.position⟩, behind)
      | .ok kind =>
        .again (pieces ++ [⟨kind, String.ofList lexeme.taken, ⟨lexer.position, behind.position⟩⟩], behind)

/-- A round of the loop that collects tokens: one call.  The loop ends with the end of the input, and with a fault. -/
def tokenRound : List Token × Lexer → Round (List Token × Lexer) (Except LexError (List Token))
  | (found, lexer) =>
    match lexer.next with
    | (.error e, _) => .done (.error e)
    | (.ok token, behind) =>
      if token.terminal = .endOfInput then .done (.ok (found ++ [token])) else .again (found ++ [token], behind)

end Lexer

end PlsqlLint
