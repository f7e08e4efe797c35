import PlsqlLint.Proofs.Refusal

/-!
# String literals

A text is read as one string, with nothing before it and nothing behind, if and only if it is a string literal
(`tokenize_string`).  There are two ways to write one.  In a plain string, a quote inside is written twice.  In a freely
delimited string, all characters stand for themselves up to the first closing delimiter that a quote follows.

Which token a whole text is does not depend on what could follow it (`tokenize_single_iff`), so the grammar has to be
compared with the spellings of strings only (`Lexeme.spells_string_iff`).
-/

namespace PlsqlLint

/-! ### Texts of one token -/

/-- A text that spells a token is read as that token, and then it is at its end. -/
theorem tokenize_of_spells {s : String} {terminal : Terminal} (h : Lexeme.Spells terminal s.toList)
    (hend : terminal ≠ .endOfInput) :
    ∃ stop, tokenize s = .ok [⟨terminal, s, ⟨.start, stop⟩, []⟩, .endAt stop] := by
  have hloose := Lexeme.loose_nil
  have htoken := h.token_eq hloose (fun hterminal => absurd hterminal hend)
  have htrivia := h.trivia?_eq_none hloose (fun hterminal => absurd hterminal hend)
  rw [List.append_nil] at htoken htrivia
  have hnext := Lexer.next_of_token (a := .ofText s) (Lexer.trivia_of_none htrivia) htoken
  have hlast := Lexer.next_of_token (a := ⟨[], Position.start.after s.toList⟩) (Lexer.trivia_of_none rfl)
    (rfl : Lexeme.token [] = ⟨.ok .endOfInput, [], []⟩)
  rw [String.ofList_toList] at hnext
  exact ⟨_, Lexer.tokens_of_cons hnext hend (Lexer.tokens_of_last hlast rfl)⟩

/-- A text is one token, without trivia, if and only if it spells the token. -/
theorem tokenize_single_iff {s : String} {terminal : Terminal} (hend : terminal ≠ .endOfInput) :
    (∃ t e, tokenize s = .ok [t, e] ∧ t.terminal = terminal ∧ t.literal = s ∧ t.trivia = [] ∧
      e.terminal = .endOfInput) ↔ Lexeme.Spells terminal s.toList := by
  constructor
  · rintro ⟨t, e, htokens, rfl, hliteral, -, -⟩
    have hspells := Lexer.tokens_spells htokens t List.mem_cons_self
    rwa [hliteral] at hspells
  · intro h
    obtain ⟨stop, htokens⟩ := tokenize_of_spells h hend
    exact ⟨_, _, htokens, rfl, rfl, rfl, rfl⟩

/-! ### The grammar of string literals -/

/-- The marks of the national character set, which may be left out. -/
def nationalMarks : List (List Char) := [[], ['n'], ['N']]

/-- A stretch of a plain string: any character but a quote, or two quotes in a row. -/
def IsPlainPiece (cs : List Char) : Prop := cs = ['\'', '\''] ∨ ∃ c, c ≠ '\'' ∧ cs = [c]

/-- The brackets that delimit a string, each with its partner. -/
def delimiterPairs : List (Char × Char) := [('[', ']'), ('\x7b', '\x7d'), ('(', ')'), ('<', '>')]

/-- The character that closes a string with the delimiter: the partner of a bracket, else the delimiter itself. -/
def delimiterPartner (x : Char) : Char := (delimiterPairs.lookup x).getD x

/-- The texts that are string literals. -/
inductive StringLiteral : List Char → Prop
  | plain {mark : List Char} {pieces : List (List Char)} (hmark : mark ∈ nationalMarks)
      (hpieces : ∀ piece ∈ pieces, IsPlainPiece piece) : StringLiteral (mark ++ '\'' :: (pieces.flatten ++ ['\'']))
  /-- The closing delimiter and the quote at the end stand next to each other there for the first time. -/
  | delimited {mark : List Char} {q x : Char} {body : List Char} (hmark : mark ∈ nationalMarks)
      (hq : q = 'q' ∨ q = 'Q')
      (hfirst : ∀ before behind, body ++ [delimiterPartner x, '\''] = before ++ delimiterPartner x :: '\'' :: behind →
        behind = []) :
      StringLiteral (mark ++ q :: '\'' :: x :: (body ++ [delimiterPartner x, '\'']))

namespace Lexeme

private theorem closingDelimiter_eq (x : Char) : closingDelimiter x = delimiterPartner x := by
  unfold closingDelimiter delimiterPartner delimiterPairs
  simp only [List.lookup]
  cases x == '[' <;> cases x == '\x7b' <;> cases x == '(' <;> cases x == '<' <;> rfl

/-! ### What closes a string -/

/-- A plain string is closed by pieces and a quote. -/
theorem closesPlain_iff {cs : List Char} :
    ClosesPlain cs ↔
      ∃ pieces : List (List Char), (∀ piece ∈ pieces, IsPlainPiece piece) ∧ cs = pieces.flatten ++ ['\''] := by
  constructor
  · intro h
    induction h with
    | quote => exact ⟨[], by simp, rfl⟩
    | doubled _ ih =>
      obtain ⟨pieces, hpieces, rfl⟩ := ih
      exact ⟨['\'', '\''] :: pieces, List.forall_mem_cons.2 ⟨.inl rfl, hpieces⟩, rfl⟩
    | @other c _ hc _ ih =>
      obtain ⟨pieces, hpieces, rfl⟩ := ih
      exact ⟨[c] :: pieces, List.forall_mem_cons.2 ⟨.inr ⟨c, hc, rfl⟩, hpieces⟩, rfl⟩
  · rintro ⟨pieces, hpieces, rfl⟩
    induction pieces with
    | nil => exact .quote
    | cons piece pieces ih =>
      obtain ⟨hpiece, hmore⟩ := List.forall_mem_cons.1 hpieces
      have hrest := ih hmore
      rcases hpiece with rfl | ⟨c, hc, rfl⟩
      · exact .doubled hrest
      · exact .other hc hrest

/-- A text reaches the first `a` in front of `b` if these are its last two characters and stand next to each other
nowhere else. -/
private theorem reaches_iff {a b : Char} {cs : List Char} :
    Reaches a b cs ↔
      ∃ body, cs = body ++ [a, b] ∧ ∀ before behind, cs = before ++ a :: b :: behind → behind = [] := by
  constructor
  · intro h
    induction h with
    | found =>
      refine ⟨[], rfl, fun before behind heq => ?_⟩
      have hlength := congrArg List.length heq
      simp only [List.length_append, List.length_cons, List.length_nil] at hlength
      exact List.eq_nil_of_length_eq_zero (by omega)
    | @other c cs hc _ ih =>
      obtain ⟨body, rfl, hfirst⟩ := ih
      refine ⟨c :: body, rfl, fun before behind heq => ?_⟩
      cases before with
      | nil =>
        -- the first two characters are not `a` and `b`
        obtain ⟨rfl, hrest⟩ := List.cons.inj heq
        rw [hrest] at hc
        simp [startsWith] at hc
      | cons d before => exact hfirst before behind (List.cons.inj heq).2
  · rintro ⟨body, rfl, hfirst⟩
    induction body with
    | nil => exact .found
    | cons c body ih =>
      have hnot : (c == a && startsWith (· == b) (body ++ [a, b])) = false := by
        by_contra hstart
        rw [Bool.not_eq_false, Bool.and_eq_true, beq_iff_eq] at hstart
        obtain ⟨rfl, hb⟩ := hstart
        have hne : body ++ [c, b] ≠ [] := by simp
        obtain ⟨d, ds, hds⟩ := List.exists_cons_of_ne_nil hne
        rw [hds] at hb
        obtain rfl : d = b := by simpa [startsWith] using hb
        have hnil : ds = [] := hfirst [] ds (by rw [List.cons_append, hds]; rfl)
        have hlength := congrArg List.length hds
        simp only [hnil, List.length_append, List.length_cons, List.length_nil] at hlength
        omega
      exact .other hnot (ih fun before behind heq => hfirst (c :: before) behind (by rw [List.cons_append, heq]; rfl))

/-! ### The spellings of strings -/

/-- Only strings are spelled as strings. -/
theorem exists_of_spells_string {cs : List Char} (h : Spells .string cs) :
    ∃ quoting opening body, cs = opening ++ body ∧ Opens quoting opening ∧ Closes quoting body := by
  generalize hterminal : Terminal.string = terminal at h
  cases h with
  | string ho hb => exact ⟨_, _, _, rfl, ho, hb⟩
  | quotedName _ | number _ | endOfInput => cases hterminal
  | word _ _ =>
    unfold wordTerminal at hterminal
    split at hterminal <;> cases hterminal
  | @symbol s hs =>
    have hsymbols : ∀ s ∈ Terminal.symbols, s.2 ≠ .string := by decide
    exact absurd hterminal.symm (hsymbols s hs)

private theorem opens_plain_iff {cs : List Char} : Opens .plain cs ↔ ∃ mark ∈ nationalMarks, cs = mark ++ ['\''] := by
  constructor
  · intro h
    cases h with
    | bare => exact ⟨[], by simp [nationalMarks], rfl⟩
    | @national c hc => exact ⟨[c], by simpa [nationalMarks] using hc, rfl⟩
  · rintro ⟨mark, hmark, rfl⟩
    simp only [nationalMarks, List.mem_cons, List.not_mem_nil, or_false] at hmark
    rcases hmark with rfl | rfl | rfl
    · exact .bare
    · exact .national (.inl rfl)
    · exact .national (.inr rfl)

private theorem opens_delimited_iff {cs : List Char} :
    Opens .delimited cs ↔ ∃ mark ∈ nationalMarks, ∃ q, (q = 'q' ∨ q = 'Q') ∧ cs = mark ++ [q, '\''] := by
  constructor
  · intro h
    cases h with
    | @delimited q hq => exact ⟨[], by simp [nationalMarks], q, hq, rfl⟩
    | @nationalDelimited c q hc hq => exact ⟨[c], by simpa [nationalMarks] using hc, q, hq, rfl⟩
  · rintro ⟨mark, hmark, q, hq, rfl⟩
    simp only [nationalMarks, List.mem_cons, List.not_mem_nil, or_false] at hmark
    rcases hmark with rfl | rfl | rfl
    · exact .delimited hq
    · exact .nationalDelimited (.inl rfl) hq
    · exact .nationalDelimited (.inr rfl) hq

/-- The spellings of strings are the string literals. -/
theorem spells_string_iff {cs : List Char} : Spells .string cs ↔ StringLiteral cs := by
  constructor
  · intro h
    obtain ⟨quoting, opening, body, rfl, ho, hb⟩ := exists_of_spells_string h
    cases quoting with
    | plain =>
      obtain ⟨mark, hmark, rfl⟩ := opens_plain_iff.1 ho
      obtain ⟨pieces, hpieces, rfl⟩ := closesPlain_iff.1 hb
      simpa using StringLiteral.plain hmark hpieces
    | delimited =>
      obtain ⟨mark, hmark, q, hq, rfl⟩ := opens_delimited_iff.1 ho
      obtain ⟨x, ds, rfl, hreach⟩ := hb
      rw [closingDelimiter_eq] at hreach
      obtain ⟨inner, rfl, hfirst⟩ := reaches_iff.1 hreach
      simpa using StringLiteral.delimited hmark hq hfirst
  · intro h
    cases h with
    | @plain mark pieces hmark hpieces =>
      have ho : Opens .plain (mark ++ ['\'']) := opens_plain_iff.2 ⟨mark, hmark, rfl⟩
      have hb : Closes .plain (pieces.flatten ++ ['\'']) := closesPlain_iff.2 ⟨pieces, hpieces, rfl⟩
      simpa using Spells.string ho hb
    | @delimited mark q x body hmark hq hfirst =>
      have ho : Opens .delimited (mark ++ [q, '\'']) := opens_delimited_iff.2 ⟨mark, hmark, q, hq, rfl⟩
      have hreach : Reaches (closingDelimiter x) '\'' (body ++ [delimiterPartner x, '\'']) := by
        rw [closingDelimiter_eq]
        exact reaches_iff.2 ⟨body, rfl, hfirst⟩
      have hb : Closes .delimited (x :: (body ++ [delimiterPartner x, '\''])) := ⟨x, _, rfl, hreach⟩
      simpa using Spells.string ho hb

end Lexeme

/-- String literals are read by exactly their grammar: a text is one string without trivia, followed by the end of the
input, if and only if it is a string literal. -/
theorem tokenize_string (s : String) :
    (∃ t e, tokenize s = .ok [t, e] ∧ t.terminal = .string ∧ t.literal = s ∧ t.trivia = [] ∧
      e.terminal = .endOfInput) ↔ StringLiteral s.toList := by
  have hend : Terminal.string ≠ .endOfInput := by decide
  rw [tokenize_single_iff hend, Lexeme.spells_string_iff]

end PlsqlLint
