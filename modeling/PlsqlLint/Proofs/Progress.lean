import Mathlib
import PlsqlLint.Proofs.Refusal
import PlsqlLint.Token.Rounds

/-!
# Reading a text comes to an end

A text is read by two loops, `Lexer.tokenRound` and `Lexer.triviaRound`.  Nothing bounds them but what their rounds do.

* A call that finds a token other than the end of the input increases the offset (`Lexer.offset_lt_of_next`), and so
  does every round over trivia but the last (`Lexer.triviaRound_progress`).
* The end of the input is found only at the end of the text (`Lexer.Reached.span_end`).
* So each loop ends, after at most one round more than there are characters left, and with what `Lexer.trivia` and
  `Lexer.tokens` say (`Lexer.run_triviaRound`, `Lexer.run_tokenRound`).
-/

namespace PlsqlLint

/-! ### Loops, round by round -/

namespace Round

variable {σ ρ : Type}

/-- A loop ends with `result`, after at most one round more than `left` says, if each round that does not end it lessens
`left` and does not change `result`. -/
theorem run_eq_some {round : σ → Round σ ρ} {result : σ → ρ} (left : σ → Nat)
    (hround : ∀ s, round s = .done (result s) ∨ ∃ t, round s = .again t ∧ left t < left s ∧ result t = result s)
    {n : Nat} {s : σ} (hn : left s < n) : run round n s = some (result s) := by
  induction n generalizing s with
  | zero => exact absurd hn (Nat.not_lt_zero _)
  | succ n ih =>
    rcases hround s with hdone | ⟨t, hagain, hlt, hresult⟩
    · rw [run, hdone]
    · rw [run, hagain, ← hresult]
      exact ih (by omega)

end Round

/-! ### Moving on -/

namespace Lexer

variable {a b : Lexer} {cs : List Char}

/-- A move that leaves less to read increases the offset, since no character is empty. -/
theorem Moves.offset_lt (h : a.Moves cs b) (hlt : b.rest.length < a.rest.length) :
    a.position.offset < b.position.offset := by
  have hpos : 0 < (String.ofList cs).utf8ByteSize := by
    rw [Nat.pos_iff_ne_zero, Ne, String.utf8ByteSize_eq_zero_iff, String.ofList_eq_empty_iff]
    exact h.ne_nil hlt
  rw [h.position, Position.offset_after]
  omega

/-- Whatever a call comes to, it moves over the text. -/
theorem exists_moves_next (a : Lexer) : ∃ cs, a.Moves cs a.next.2 := by
  cases h : a.next with
  | mk found b =>
    cases found with
    | ok token => exact ⟨_, (next_takes h).covers.moves⟩
    | error e =>
      obtain ⟨cs, ds, c, hc, hb, -⟩ := next_fails h
      exact ⟨_, hc.trans hb⟩

/-- A call that finds another token than the end of the input increases the offset. -/
theorem offset_lt_of_next {token : Token} (h : a.next = (.ok token, b)) (hend : token.terminal ≠ .endOfInput) :
    a.position.offset < b.position.offset :=
  (next_takes h).covers.moves.offset_lt (next_rest_lt h hend)

/-! ### The loop over trivia -/

/-- The lexer that a round of the loop over trivia leaves, also if the loop ends with it. -/
def behindTriviaRound : Round (List Trivia × Lexer) (Except LexError (List Trivia) × Lexer) → Lexer
  | .again (_, lexer) | .done (_, lexer) => lexer

/-- What the loop over trivia comes to when `pieces` have been collected before. -/
def collectTrivia : List Trivia × Lexer → Except LexError (List Trivia) × Lexer
  | (pieces, lexer) => (lexer.trivia.1.map (pieces ++ ·), lexer.trivia.2)

/-- A round finds nothing and ends the loop where it is, or it leaves the lexer behind a piece of trivia. -/
private theorem triviaRound_moves (pieces : List Trivia) (a : Lexer) :
    Lexeme.trivia? a.rest = none ∧ triviaRound (pieces, a) = .done (.ok pieces, a) ∨
      ∃ lexeme, Lexeme.trivia? a.rest = some lexeme ∧ behindTriviaRound (triviaRound (pieces, a)) = a.past lexeme := by
  rw [triviaRound]
  split
  · rename_i hnone
    exact .inl ⟨hnone, rfl⟩
  · rename_i lexeme hlexeme
    refine .inr ⟨lexeme, hlexeme, ?_⟩
    dsimp only
    split <;> rfl

/-- Every round of the loop over trivia increases the offset, but for the one that finds nothing, which ends the
loop. -/
theorem triviaRound_progress (pieces : List Trivia) (a : Lexer) :
    Lexeme.trivia? a.rest = none ∧ triviaRound (pieces, a) = .done (.ok pieces, a) ∨
      a.position.offset < (behindTriviaRound (triviaRound (pieces, a))).position.offset := by
  refine (triviaRound_moves pieces a).imp_right ?_
  rintro ⟨lexeme, hlexeme, hbehind⟩
  rw [hbehind]
  exact (Moves.pastTrivia hlexeme).offset_lt (Lexeme.trivia?_rest_lt hlexeme)

/-- A round ends the loop as `collectTrivia` says, or leaves less to read and `collectTrivia` as it was. -/
theorem triviaRound_cases (s : List Trivia × Lexer) :
    triviaRound s = .done (collectTrivia s) ∨
      ∃ t, triviaRound s = .again t ∧ t.2.rest.length < s.2.rest.length ∧ collectTrivia t = collectTrivia s := by
  obtain ⟨pieces, a⟩ := s
  rw [triviaRound, collectTrivia]
  fun_cases trivia a with
  | case1 hnone =>
    left
    simp [hnone, Except.map]
  | case2 lexeme hlexeme fault hfault =>
    left
    simp [hlexeme, hfault, Except.map]
  | case3 lexeme hlexeme kind hkind more behind hmore span =>
    right
    refine ⟨(pieces ++ [⟨kind, String.ofList lexeme.taken, span⟩], a.past lexeme), ?_,
      Lexeme.trivia?_rest_lt hlexeme, ?_⟩
    · simp [hlexeme, hkind, span]
    · simp [collectTrivia, hmore, Except.map]
  | case4 lexeme hlexeme kind hkind e behind hmore =>
    right
    refine ⟨(pieces ++ [⟨kind, String.ofList lexeme.taken, ⟨a.position, (a.past lexeme).position⟩⟩], a.past lexeme), ?_,
      Lexeme.trivia?_rest_lt hlexeme, ?_⟩
    · simp [hlexeme, hkind]
    · simp [collectTrivia, hmore, Except.map]

private theorem collectTrivia_nil (a : Lexer) : collectTrivia ([], a) = a.trivia := by
  rw [collectTrivia]
  cases a.trivia with
  | mk found b => cases found <;> rfl

/-- The loop over trivia ends, after at most one round more than there are characters left. -/
theorem run_triviaRound (a : Lexer) {n : Nat} (hn : a.rest.length < n) :
    Round.run triviaRound n ([], a) = some a.trivia := by
  rw [Round.run_eq_some (fun s => s.2.rest.length) triviaRound_cases hn, collectTrivia_nil]

/-! ### The loop over tokens -/

/-- What the loop over tokens comes to when `found` have been collected before. -/
def collectTokens : List Token × Lexer → Except LexError (List Token)
  | (found, lexer) => lexer.tokens.map (found ++ ·)

/-- A call ends the loop as `collectTokens` says, or leaves less to read and `collectTokens` as it was. -/
theorem tokenRound_cases (s : List Token × Lexer) :
    tokenRound s = .done (collectTokens s) ∨
      ∃ t, tokenRound s = .again t ∧ t.2.rest.length < s.2.rest.length ∧ collectTokens t = collectTokens s := by
  obtain ⟨found, a⟩ := s
  rw [tokenRound, collectTokens]
  fun_cases tokens a with
  | case1 e b herror =>
    left
    simp [herror, Except.map]
  | case2 token b htoken hend =>
    left
    simp [htoken, hend, Except.map]
  | case3 token b htoken hend rest hrest =>
    right
    refine ⟨(found ++ [token], b), by simp [htoken, hend], next_rest_lt htoken hend, ?_⟩
    simp [collectTokens, hrest, Except.map]
  | case4 token b htoken hend e hrest =>
    right
    refine ⟨(found ++ [token], b), by simp [htoken, hend], next_rest_lt htoken hend, ?_⟩
    simp [collectTokens, hrest, Except.map]

private theorem collectTokens_nil (a : Lexer) : collectTokens ([], a) = a.tokens := by
  rw [collectTokens]
  cases a.tokens <;> rfl

/-- The loop over tokens ends, after at most one call more than there are characters left. -/
theorem run_tokenRound (a : Lexer) {n : Nat} (hn : a.rest.length < n) :
    Round.run tokenRound n ([], a) = some a.tokens := by
  rw [Round.run_eq_some (fun s => s.2.rest.length) tokenRound_cases hn, collectTokens_nil]

/-- Signs that stand alone need as many calls as the bound allows. -/
example : (Round.run tokenRound 3 ([], ofText "+++")).isNone ∧ (Round.run tokenRound 4 ([], ofText "+++")).isSome := by
  cbv

/-! ### Every lexer of a text -/

/-- The lexers that come up while a text is read: the one at its beginning, those behind a call, whatever it came to,
and those behind a round of the loop over trivia. -/
inductive Reached (text : String) : Lexer → Prop
  | start : Reached text (ofText text)
  | call {a : Lexer} (h : Reached text a) : Reached text a.next.2
  | round {a : Lexer} (h : Reached text a) (pieces : List Trivia) :
      Reached text (behindTriviaRound (triviaRound (pieces, a)))

/-- A lexer of a text is at a place of it. -/
theorem Reached.exists_moves {text : String} (h : Reached text a) : ∃ cs, (ofText text).Moves cs a := by
  induction h with
  | start => exact ⟨[], .refl _⟩
  | call _ ih =>
    obtain ⟨cs, hcs⟩ := ih
    obtain ⟨ds, hds⟩ := exists_moves_next _
    exact ⟨_, hcs.trans hds⟩
  | @round a _ pieces ih =>
    obtain ⟨cs, hcs⟩ := ih
    rcases triviaRound_moves pieces a with ⟨-, hdone⟩ | ⟨lexeme, hlexeme, hbehind⟩
    · rw [hdone]
      exact ⟨cs, hcs⟩
    · rw [hbehind]
      exact ⟨_, hcs.trans (.pastTrivia hlexeme)⟩

/-- A lexer that has nothing left to read is at the end of the text. -/
theorem Reached.offset_eq {text : String} (h : Reached text a) (hrest : a.rest = []) :
    a.position.offset = text.utf8ByteSize := by
  obtain ⟨cs, hcs⟩ := h.exists_moves
  have htext : text.toList = cs := by
    have hmoved := hcs.rest
    rwa [hrest, List.append_nil] at hmoved
  rw [hcs.position, Position.offset_after, ← htext, String.ofList_toList]
  exact Nat.zero_add _

/-- The end of the input is found at the end of the text, where nothing is left to read. -/
theorem Reached.span_end {text : String} (h : Reached text a) {token : Token} (hnext : a.next = (.ok token, b))
    (hend : token.terminal = .endOfInput) :
    b.rest = [] ∧ token.span = .empty b.position ∧ b.position.offset = text.utf8ByteSize := by
  obtain ⟨vs, s, terminal, taken, -, htoken, rfl, hposition⟩ := exists_of_next hnext
  obtain rfl : terminal = .endOfInput := hend
  have happend := Lexeme.token_append s.rest
  rw [Lexeme.eq_nil_of_found_end (congrArg Lexeme.found htoken)] at happend htoken
  rw [htoken] at happend
  obtain ⟨rfl, hb⟩ := List.append_eq_nil_iff.1 happend
  have hreached : Reached text b := by simpa [hnext] using h.call
  exact ⟨hb, by rw [hposition]; rfl, hreached.offset_eq hb⟩

end Lexer

/-- Reading a text always makes progress.  At every lexer that comes up, a call that finds another token than the end of
the input increases the offset, and one that finds the end of the input is then at the end of the text.  Each round of
the loop over trivia increases the offset, but for the one that finds nothing, which ends the loop; so the loop ends,
with the trivia in front of the next token.

Thus the loop over tokens ends, with the tokens of the text or with a fault, after at most one call more than the text
has characters. -/
theorem tokenize_progress (text : String) :
    (∀ a, Lexer.Reached text a →
      (∀ token b, a.next = (.ok token, b) → token.terminal ≠ .endOfInput → a.position.offset < b.position.offset) ∧
      (∀ token b, a.next = (.ok token, b) → token.terminal = .endOfInput →
        b.rest = [] ∧ token.span = .empty b.position ∧ b.position.offset = text.utf8ByteSize) ∧
      (∀ pieces, Lexeme.trivia? a.rest = none ∧ Lexer.triviaRound (pieces, a) = .done (.ok pieces, a) ∨
        a.position.offset < (Lexer.behindTriviaRound (Lexer.triviaRound (pieces, a))).position.offset) ∧
      Round.run Lexer.triviaRound (a.rest.length + 1) ([], a) = some a.trivia) ∧
    Round.run Lexer.tokenRound (text.length + 1) ([], Lexer.ofText text) = some (tokenize text) := by
  refine ⟨?_, ?_⟩
  · intro a ha
    refine ⟨?_, ?_, ?_, a.run_triviaRound (Nat.lt_succ_self _)⟩
    · intro token b hnext hend
      exact Lexer.offset_lt_of_next hnext hend
    · intro token b hnext hend
      exact ha.span_end hnext hend
    · intro pieces
      exact Lexer.triviaRound_progress pieces a
  · have hlength : (Lexer.ofText text).rest.length = text.length := String.length_toList
    exact Lexer.run_tokenRound _ (by omega)

/-- A blank, a number that starts with its dot, and a comment up to the end of the text, with a character of two
bytes. -/
theorem tokenize_progress_dot :
    let text := " .5--é"
    let number : Token := ⟨.number, ".5", ⟨⟨1, 1, 1⟩, ⟨1, 3, 3⟩⟩, [⟨.whitespace, " ", ⟨⟨1, 0, 0⟩, ⟨1, 1, 1⟩⟩⟩]⟩
    let behind : Lexer := ⟨['-', '-', 'é'], ⟨1, 3, 3⟩⟩
    let comment : Trivia := ⟨.lineComment, "--é", ⟨⟨1, 3, 3⟩, ⟨1, 6, 7⟩⟩⟩
    let last : Token := ⟨.endOfInput, "", ⟨⟨1, 6, 7⟩, ⟨1, 6, 7⟩⟩, [comment]⟩
    Lexer.Reached text behind ∧
    (Lexer.ofText text).next = (.ok number, behind) ∧ (Lexer.ofText text).position.offset < behind.position.offset ∧
    Lexer.triviaRound ([], behind) = .again ([comment], ⟨[], ⟨1, 6, 7⟩⟩) ∧ behind.position.offset < 7 ∧
    behind.next = (.ok last, ⟨[], ⟨1, 6, 7⟩⟩) ∧ last.span.start.offset = text.utf8ByteSize ∧
    Round.run Lexer.tokenRound 7 ([], Lexer.ofText text) = some (.ok [number, last]) := by
  intro text number behind comment last
  obtain ⟨hall, hrun⟩ := tokenize_progress text
  have hnumber : (Lexer.ofText text).next = (.ok number, behind) := by cbv
  have hlast : behind.next = (.ok last, ⟨[], ⟨1, 6, 7⟩⟩) := by cbv
  have hround : Lexer.triviaRound ([], behind) = .again ([comment], ⟨[], ⟨1, 6, 7⟩⟩) := by cbv
  have htokens : tokenize text = .ok [number, last] :=
    Lexer.tokens_of_cons hnumber (by decide) (Lexer.tokens_of_last hlast rfl)
  have hreached : Lexer.Reached text behind := by simpa [hnumber] using (@Lexer.Reached.start text).call
  obtain ⟨hprogress, -⟩ := hall _ .start
  obtain ⟨-, hend, htrivia, -⟩ := hall _ hreached
  have hmore := (htrivia []).resolve_left fun hnone => by simp [hround] at hnone
  rw [hround] at hmore
  obtain ⟨-, hspan, hoffset⟩ := hend _ _ hlast rfl
  refine ⟨hreached, hnumber, hprogress _ _ hnumber (by decide), hround, hmore, hlast, ?_, ?_⟩
  · rw [hspan]
    exact hoffset
  · have hlength : text.length = 6 := by decide
    rw [← htokens, ← hrun, hlength]

end PlsqlLint
