import Mathlib
import PlsqlLint.Token.Lexer

/-!
# A text and its tokens

A lexer moves forward over the characters of its text, and its position counts the characters behind it
(`Lexer.Moves`).  A call that finds a token covers the stretch it moves over with pieces, the trivia and the token,
side by side and each at its place (`Lexer.next_takes`); a call that fails moves as well, and the fault is somewhere on
its way (`Lexer.next_fails`).

* The pieces of all tokens of a text are the text (`tokenize_lossless`).
* However often a lexer is called, and whatever the calls come to, all places it speaks of are those of prefixes of the
  text (`lexer_positions`).
-/

namespace PlsqlLint

/-! ### The place behind a text -/

namespace Position

/-- The position has the text `cs` before it: so many bytes, so many line feeds, and so many characters behind the
last of them. -/
structure IsBehind (p : Position) (cs : List Char) : Prop where
  offset : p.offset = (String.ofList cs).utf8ByteSize
  line : p.line = 1 + cs.count '\n'
  column : p.column = (cs.rtakeWhile (· != '\n')).length

theorem isBehind_start : start.IsBehind [] := ⟨rfl, rfl, rfl⟩

private theorem IsBehind.next {p : Position} {cs : List Char} (h : p.IsBehind cs) (c : Char) :
    (p.next c).IsBehind (cs ++ [c]) := by
  have hsize : (String.ofList (cs ++ [c])).utf8ByteSize = p.offset + c.utf8Size := by simp [h.offset]
  by_cases hc : c = '\n'
  · subst hc
    rw [Position.next, if_pos rfl]
    refine ⟨hsize.symm, ?_, ?_⟩
    · simp only [h.line, List.count_append, List.count_singleton_self, Nat.add_assoc]
    · rw [List.rtakeWhile_concat_neg _ _ _ (by simp)]; rfl
  · rw [Position.next, if_neg hc]
    refine ⟨hsize.symm, ?_, ?_⟩
    · simp [h.line, hc]
    · rw [List.rtakeWhile_concat_pos _ _ _ (by simpa using hc), List.length_append, ← h.column]; rfl

theorem IsBehind.after {p : Position} {cs : List Char} (h : p.IsBehind cs) (ds : List Char) :
    (p.after ds).IsBehind (cs ++ ds) := by
  induction ds generalizing p cs with
  | nil => simpa using h
  | cons d ds ih =>
    have := ih (h.next d)
    rwa [List.append_assoc, List.singleton_append] at this

theorem offset_after (p : Position) (cs : List Char) :
    (p.after cs).offset = p.offset + (String.ofList cs).utf8ByteSize := by
  induction cs generalizing p with
  | nil => simp
  | cons c cs ih =>
    have hc : (p.next c).offset = p.offset + c.utf8Size := by
      unfold next; split <;> rfl
    have hs : (String.ofList (c :: cs)).utf8ByteSize = c.utf8Size + (String.ofList cs).utf8ByteSize := by
      rw [← List.singleton_append, String.ofList_append, String.utf8ByteSize_append]; simp
    rw [after_cons, ih, hc, hs, Nat.add_assoc]

end Position

/-! ### Moving over a text -/

namespace Lexer

/-- The lexer `b` is `a` once it has read `cs`. -/
structure Moves (a : Lexer) (cs : List Char) (b : Lexer) : Prop where
  rest : a.rest = cs ++ b.rest
  position : b.position = a.position.after cs

variable {a b c : Lexer} {cs ds : List Char}

theorem Moves.refl (a : Lexer) : a.Moves [] a := ⟨rfl, rfl⟩

theorem Moves.trans (h : a.Moves cs b) (h' : b.Moves ds c) : a.Moves (cs ++ ds) c := by
  refine ⟨?_, ?_⟩
  · rw [h.rest, h'.rest, List.append_assoc]
  · rw [h'.position, h.position, Position.after_append]

theorem Moves.pastTrivia {lexeme : Lexeme TriviaKind} (h : Lexeme.trivia? a.rest = some lexeme) :
    a.Moves lexeme.taken (a.past lexeme) := ⟨(Lexeme.trivia?_append h).symm, rfl⟩

private theorem Moves.pastToken (a : Lexer) : a.Moves (Lexeme.token a.rest).taken (a.past (Lexeme.token a.rest)) :=
  ⟨(Lexeme.token_append a.rest).symm, rfl⟩

private theorem Moves.offset_le (h : a.Moves cs b) : a.position.offset ≤ b.position.offset := by
  rw [h.position, Position.offset_after]; omega

end Lexer

/-! ### The pieces of a text -/

/-- A stretch of text at its place. -/
structure Piece where
  text : String
  span : Span

def Trivia.piece (v : Trivia) : Piece := ⟨v.text, v.span⟩

/-- The trivia of a token and then the token itself. -/
def Token.pieces (t : Token) : List Piece := t.trivia.map Trivia.piece ++ [⟨t.literal, t.span⟩]

/-- The spans lie side by side: the first starts at `p`, each of the others where the one before it stops, and the last
stops at `q`. -/
def Span.Tile (p : Position) : List Span → Position → Prop
  | [], q => p = q
  | s :: ss, q => s.start = p ∧ Tile s.stop ss q

/-- What lies between two lexers of a text, cut into pieces. -/
inductive Lexer.Covers : Lexer → List Piece → Lexer → Prop
  | nil {a} : Covers a [] a
  | cons {a b c text pieces} (hm : a.Moves (String.toList text) b) (h : Covers b pieces c) :
      Covers a (⟨text, ⟨a.position, b.position⟩⟩ :: pieces) c

namespace Lexer.Covers

variable {a b c : Lexer} {ps qs : List Piece}

private theorem append (h : a.Covers ps b) (h' : b.Covers qs c) : a.Covers (ps ++ qs) c := by
  induction h with
  | nil => exact h'
  | cons hm _ ih => exact .cons hm (ih h')

theorem moves (h : a.Covers ps b) : a.Moves (ps.flatMap (·.text.toList)) b := by
  induction h with
  | nil => exact .refl _
  | cons hm _ ih => exact hm.trans ih

private theorem tile (h : a.Covers ps b) : Span.Tile a.position (ps.map Piece.span) b.position := by
  induction h with
  | nil => rfl
  | cons hm _ ih => exact ⟨rfl, ih⟩

/-- Each piece lies somewhere on the way, between two places of the text. -/
private theorem piece {p : Piece} (h : a.Covers ps b) (hp : p ∈ ps) :
    ∃ cs ds x y, a.Moves cs x ∧ x.Moves p.text.toList y ∧ y.Moves ds b ∧ p.span = ⟨x.position, y.position⟩ := by
  induction h with
  | nil => simp at hp
  | @cons a b' c text pieces hm h ih =>
    rcases List.mem_cons.1 hp with rfl | hp
    · exact ⟨[], _, a, b', .refl a, hm, h.moves, rfl⟩
    · obtain ⟨cs, ds, x, y, hx, hy, hb, hs⟩ := ih hp
      exact ⟨_, ds, x, y, hm.trans hx, hy, hb, hs⟩

end Lexer.Covers

/-! ### One call -/

private theorem symbols_ne_end : ∀ s ∈ Terminal.symbols, s.2 ≠ .endOfInput := by decide

/-- Only an empty text starts with the end of the input. -/
theorem Lexeme.eq_nil_of_found_end {cs : List Char} (h : (token cs).found = .ok .endOfInput) : cs = [] := by
  unfold token at h
  split at h
  · unfold string at h
    split at h <;> cases h
  · split at h
    · rfl
    · split at h
      · unfold quotedName at h
        split at h
        · cases h
        · split at h <;> cases h
      · split at h
        · cases h
        · split at h
          · unfold word wordTerminal at h
            dsimp only [ofCut] at h
            split at h <;> cases h
          · unfold symbol at h
            split at h
            · rename_i spelling terminal hf
              have hne := symbols_ne_end _ (List.mem_of_find?_eq_some hf)
              cases h
              exact absurd rfl hne
            · cases h

namespace Lexer

variable {a b : Lexer}

/-- A move that leaves less to read has read something. -/
theorem Moves.ne_nil {cs : List Char} (h : a.Moves cs b) (hlt : b.rest.length < a.rest.length) : cs ≠ [] := by
  rintro rfl
  rw [h.rest, List.nil_append] at hlt
  exact Nat.lt_irrefl _ hlt

/-- The trivia that are found cover the way to the token, and none of them is empty. -/
theorem trivia_covers {vs : List Trivia} (h : a.trivia = (.ok vs, b)) :
    a.Covers (vs.map Trivia.piece) b ∧ ∀ v ∈ vs, v.text ≠ "" := by
  fun_induction trivia a generalizing vs with
  | case1 a _ => cases h; exact ⟨.nil, by simp⟩
  | case2 a lexeme _ fault _ => cases h
  | case3 a lexeme hl kind _ pieces behind ht _ =>
    rename_i ih
    cases h
    obtain ⟨hc, hne⟩ := ih ht
    have hm := Moves.pastTrivia hl
    refine ⟨.cons (by rwa [String.toList_ofList]) hc, ?_⟩
    intro v hv
    rcases List.mem_cons.1 hv with rfl | hv
    · have hne : lexeme.taken ≠ [] := hm.ne_nil (Lexeme.trivia?_rest_lt hl)
      simpa using hne
    · exact hne v hv
  | case4 a lexeme _ kind _ e behind _ _ => cases h

/-- A comment without an end starts somewhere on the way. -/
private theorem trivia_fails {e : LexError} (h : a.trivia = (.error e, b)) :
    ∃ cs ds c, a.Moves cs c ∧ c.Moves ds b ∧ e.position = c.position := by
  fun_induction trivia a with
  | case1 a _ => cases h
  | case2 a lexeme hl fault _ =>
    cases h
    exact ⟨[], _, a, .refl a, .pastTrivia hl, rfl⟩
  | case3 a lexeme _ kind _ pieces behind _ _ => cases h
  | case4 a lexeme hl kind _ e' behind ht ih =>
    cases h
    obtain ⟨cs, ds, c, hc, hb, he⟩ := ih ht
    exact ⟨_, ds, c, (Moves.pastTrivia hl).trans hc, hb, he⟩

/-- What a call at `a` that finds the token `t` and comes to `b` guarantees. -/
structure Takes (a : Lexer) (t : Token) (b : Lexer) : Prop where
  covers : a.Covers t.pieces b
  trivia_ne : ∀ v ∈ t.trivia, v.text ≠ ""
  literal_eq : t.literal = "" ↔ t.terminal = .endOfInput
  rest_eq : t.terminal = .endOfInput → b.rest = []

theorem next_takes {t : Token} (h : a.next = (.ok t, b)) : a.Takes t b := by
  unfold next at h
  split at h
  · cases h
  · rename_i trivia start ht
    dsimp only at h
    split at h
    · cases h
    · rename_i terminal hf
      cases h
      obtain ⟨hc, hne⟩ := trivia_covers ht
      have hm := Moves.pastToken start
      refine ⟨hc.append (.cons (by rwa [String.toList_ofList]) .nil), hne, ?_, ?_⟩
      · rw [String.ofList_eq_empty_iff]
        constructor
        · intro hnil
          by_contra hend
          exact hm.ne_nil (Lexeme.token_rest_lt hf hend) hnil
        · rintro rfl
          rw [Lexeme.eq_nil_of_found_end hf]; rfl
      · rintro rfl
        show (Lexeme.token start.rest).rest = []
        rw [Lexeme.eq_nil_of_found_end hf]; rfl

theorem next_fails {e : LexError} (h : a.next = (.error e, b)) :
    ∃ cs ds c, a.Moves cs c ∧ c.Moves ds b ∧ e.position = c.position := by
  unfold next at h
  split at h
  · rename_i ht
    cases h
    exact trivia_fails ht
  · rename_i trivia start ht
    dsimp only at h
    split at h
    · cases h
      exact ⟨_, _, start, (trivia_covers ht).1.moves, .pastToken start, rfl⟩
    · cases h

/-! ### The whole text -/

/-- Call after call, up to the end of the input. -/
inductive TakesAll : Lexer → List Token → Lexer → Prop
  | last {a t b} (h : Takes a t b) (ht : t.terminal = .endOfInput) : TakesAll a [t] b
  | cons {a t b ts c} (h : Takes a t b) (ht : t.terminal ≠ .endOfInput) (hs : TakesAll b ts c) :
      TakesAll a (t :: ts) c

theorem tokens_takesAll {ts : List Token} (h : a.tokens = .ok ts) : ∃ b, TakesAll a ts b := by
  fun_induction tokens a generalizing ts with
  | case1 a e b _ => cases h
  | case2 a t b hn ht => cases h; exact ⟨b, .last (next_takes hn) ht⟩
  | case3 a t b hn ht rest hr ih =>
    cases h
    obtain ⟨c, hc⟩ := ih hr
    exact ⟨c, .cons (next_takes hn) ht hc⟩
  | case4 a t b hn ht e _ _ => cases h

namespace TakesAll

variable {ts : List Token}

theorem covers (h : TakesAll a ts b) : a.Covers (ts.flatMap Token.pieces) b := by
  induction h with
  | last h _ => simpa using h.covers
  | cons h _ _ ih => exact h.covers.append ih

theorem rest_eq (h : TakesAll a ts b) : b.rest = [] := by
  induction h with
  | last h ht => exact h.rest_eq ht
  | cons _ _ _ ih => exact ih

private theorem trivia_ne (h : TakesAll a ts b) : ∀ t ∈ ts, ∀ v ∈ t.trivia, v.text ≠ "" := by
  induction h with
  | last h _ => simpa using h.trivia_ne
  | cons h _ _ ih => exact List.forall_mem_cons.2 ⟨h.trivia_ne, ih⟩

theorem closed (h : TakesAll a ts b) :
    ∃ (body : List Token) (last : Token), ts = body ++ [last] ∧ last.terminal = .endOfInput ∧ last.literal = "" ∧
      ∀ t ∈ body, t.terminal ≠ .endOfInput ∧ t.literal ≠ "" := by
  induction h with
  | @last a t b h ht => exact ⟨[], t, rfl, ht, h.literal_eq.2 ht, by simp⟩
  | @cons a t b ts c h ht _ ih =>
    obtain ⟨body, last, rfl, hend, hlit, hbody⟩ := ih
    refine ⟨t :: body, last, rfl, hend, hlit, List.forall_mem_cons.2 ⟨⟨ht, ?_⟩, hbody⟩⟩
    exact fun he => ht (h.literal_eq.1 he)

end TakesAll

end Lexer

/-- The tokens of a text give the text back.  The texts of their pieces make it up, the spans of the pieces tile it from
its beginning to its end, and each span is as long as its text.  The last token is the end of the input, whose text is
empty; all other tokens and all trivia are not empty, and none of them is the end of the input. -/
theorem tokenize_lossless (text : String) (tokens : List Token) (h : tokenize text = .ok tokens) :
    String.join ((tokens.flatMap Token.pieces).map Piece.text) = text ∧
    (∃ finish : Position, Span.Tile .start ((tokens.flatMap Token.pieces).map Piece.span) finish ∧
      finish.offset = text.utf8ByteSize) ∧
    (∀ p ∈ tokens.flatMap Token.pieces, p.span.stop.offset = p.span.start.offset + p.text.utf8ByteSize) ∧
    (∃ (body : List Token) (last : Token), tokens = body ++ [last] ∧ last.terminal = .endOfInput ∧ last.literal = "" ∧
      ∀ t ∈ body, t.terminal ≠ .endOfInput ∧ t.literal ≠ "") ∧
    ∀ t ∈ tokens, ∀ v ∈ t.trivia, v.text ≠ "" := by
  obtain ⟨b, hall⟩ := Lexer.tokens_takesAll h
  have hcovers := hall.covers
  have hmoves := hcovers.moves
  have htext : text.toList = (tokens.flatMap Token.pieces).flatMap (·.text.toList) := by
    have hrest := hmoves.rest
    rw [hall.rest_eq, List.append_nil] at hrest
    exact hrest
  refine ⟨?_, ⟨b.position, hcovers.tile, ?_⟩, ?_, hall.closed, hall.trivia_ne⟩
  · rw [← String.toList_inj, String.toList_join, List.flatMap_map, htext]
  · rw [hmoves.position, Position.offset_after, ← htext, String.ofList_toList]
    exact Nat.zero_add _
  · intro p hp
    obtain ⟨cs, ds, x, y, hx, hy, -, hs⟩ := hcovers.piece hp
    rw [hs, hy.position, Position.offset_after, String.ofList_toList]

/-- A string with a doubled quote and a character of two bytes, a comment, and a number in front of a range. -/
theorem tokenize_lossless_quotes :
    ∃ tokens, tokenize "n'é'''/**/1..\n" = .ok tokens ∧
      (tokens.flatMap Token.pieces).map Piece.text = ["n'é'''", "/**/", "1", "..", "\n", ""] ∧
      String.join ((tokens.flatMap Token.pieces).map Piece.text) = "n'é'''/**/1..\n" := by
  have h : tokenize "n'é'''/**/1..\n" = .ok
      [⟨.string, "n'é'''", ⟨⟨1, 0, 0⟩, ⟨1, 6, 7⟩⟩, []⟩,
       ⟨.number, "1", ⟨⟨1, 10, 11⟩, ⟨1, 11, 12⟩⟩, [⟨.blockComment, "/**/", ⟨⟨1, 6, 7⟩, ⟨1, 10, 11⟩⟩⟩]⟩,
       ⟨.range, "..", ⟨⟨1, 11, 12⟩, ⟨1, 13, 14⟩⟩, []⟩,
       ⟨.endOfInput, "", ⟨⟨2, 0, 15⟩, ⟨2, 0, 15⟩⟩, [⟨.whitespace, "\n", ⟨⟨1, 13, 14⟩, ⟨2, 0, 15⟩⟩⟩]⟩] := by
    decide +kernel
  exact ⟨_, h, rfl, (tokenize_lossless _ _ h).1⟩

/-! ### Every state that can be reached -/

/-- The lexer after `n` calls, whatever they came to. -/
def Lexer.steps (a : Lexer) : Nat → Lexer
  | 0 => a
  | n + 1 => (a.steps n).next.2

/-- The places that a call speaks of are right, if it found `before` behind the lexer and has read `taken`: those of the
pieces of a token, and that of a fault. -/
def Placed (before taken : List Char) : Except LexError Token → Prop
  | .ok token => ∀ p ∈ token.pieces, ∃ cs ds, taken = cs ++ p.text.toList ++ ds ∧
      p.span.start.IsBehind (before ++ cs) ∧ p.span.stop.IsBehind (before ++ cs ++ p.text.toList)
  | .error e => ∃ cs ds, taken = cs ++ ds ∧ e.position.IsBehind (before ++ cs)

namespace Lexer

variable {a b : Lexer}

theorem Moves.isBehind {before cs : List Char} (h : a.Moves cs b) (ha : a.position.IsBehind before) :
    b.position.IsBehind (before ++ cs) := by
  rw [h.position]
  exact ha.after cs

/-- A call moves forward, and the places it speaks of are on its way. -/
theorem next_placed (a : Lexer) {before : List Char} (ha : a.position.IsBehind before) :
    ∃ taken, a.Moves taken a.next.2 ∧ Placed before taken a.next.1 := by
  cases h : a.next with
  | mk result b =>
    cases result with
    | ok token =>
      have hcovers := (next_takes h).covers
      refine ⟨_, hcovers.moves, ?_⟩
      intro p hp
      obtain ⟨cs, ds, x, y, hx, hy, hb, hs⟩ := hcovers.piece hp
      have hx' := hx.isBehind ha
      have hall := ((hx.trans hy).trans hb).rest
      rw [hcovers.moves.rest] at hall
      refine ⟨cs, ds, List.append_cancel_right hall, ?_⟩
      rw [hs]
      exact ⟨hx', hy.isBehind hx'⟩
    | error e =>
      obtain ⟨cs, ds, c, hc, hb, he⟩ := next_fails h
      refine ⟨cs ++ ds, hc.trans hb, cs, ds, rfl, ?_⟩
      rw [he]
      exact hc.isBehind ha

/-- What is behind and what is ahead of a lexer are the text, however often it has been called. -/
theorem steps_isBehind (text : String) (n : Nat) :
    ∃ before : List Char, before ++ ((ofText text).steps n).rest = text.toList ∧
      ((ofText text).steps n).position.IsBehind before := by
  induction n with
  | zero => exact ⟨[], rfl, Position.isBehind_start⟩
  | succ n ih =>
    obtain ⟨before, hrest, hpos⟩ := ih
    obtain ⟨taken, hm, -⟩ := next_placed _ hpos
    refine ⟨before ++ taken, ?_, hm.isBehind hpos⟩
    rw [List.append_assoc, steps, ← hm.rest, hrest]

end Lexer

/-- However often a lexer is called, after faults and behind the end of the input as well, its offset never decreases,
and between any two calls it stands behind a prefix `before` of the text: its offset, line and column are those of
`before`.  The next call reads some more characters, `taken`, and all the places it speaks of are those behind prefixes
of the text that end in `taken`. -/
theorem lexer_positions (text : String) :
    Monotone (fun n => ((Lexer.ofText text).steps n).position.offset) ∧
    ∀ n, ∃ before taken : List Char,
      before ++ ((Lexer.ofText text).steps n).rest = text.toList ∧
      ((Lexer.ofText text).steps n).rest = taken ++ ((Lexer.ofText text).steps (n + 1)).rest ∧
      ((Lexer.ofText text).steps n).position.IsBehind before ∧
      ((Lexer.ofText text).steps (n + 1)).position.IsBehind (before ++ taken) ∧
      Placed before taken ((Lexer.ofText text).steps n).next.1 := by
  have hstep : ∀ n, ∃ before taken : List Char, before ++ ((Lexer.ofText text).steps n).rest = text.toList ∧
      ((Lexer.ofText text).steps n).position.IsBehind before ∧
      ((Lexer.ofText text).steps n).Moves taken ((Lexer.ofText text).steps (n + 1)) ∧
      Placed before taken ((Lexer.ofText text).steps n).next.1 := by
    intro n
    obtain ⟨before, hrest, hpos⟩ := Lexer.steps_isBehind text n
    obtain ⟨taken, hm, hplaced⟩ := Lexer.next_placed _ hpos
    exact ⟨before, taken, hrest, hpos, hm, hplaced⟩
  refine ⟨?_, ?_⟩
  · apply monotone_nat_of_le_succ
    intro n
    obtain ⟨_, _, -, -, hm, -⟩ := hstep n
    exact hm.offset_le
  · intro n
    obtain ⟨before, taken, hrest, hpos, hm, hplaced⟩ := hstep n
    exact ⟨before, taken, hrest, hm.rest, hpos, hm.isBehind hpos, hplaced⟩

end PlsqlLint
