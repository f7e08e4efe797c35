import PlsqlLint.Proofs.Layout
import PlsqlLint.Proofs.Shortening

/-!
# Where a text is refused

A text that has no tokens is refused at one place.  What stands there is what the fault says (`Lexeme.Offends`): a
character that starts no lexeme, or a string, a quoted name or a comment without an end.  Up to this place the text is
sound: if it is cut off there, it has just the tokens that were found before the fault, and the end of the input
(`tokenize_refused`).

The tokens in front of the place were found in the longer text.  They are found in the shorter one as well, since the
place is not in the middle of a lexeme (`Lexer.next_of_followedBy`, from `Proofs.Shortening`).
-/

namespace PlsqlLint

/-! ### What is refused -/

namespace Lexeme

/-- The text behind the opening of a string does not close it.  A quote that is followed by another one closes no plain
string. -/
def Unclosed : Quoting → List Char → Prop
  | .plain, body => ∀ closing behind, body = closing ++ behind → ClosesPlain closing →
      startsWith (· == '\'') behind = true
  | .delimited, body => ∀ c ds, body = c :: ds → ¬ [closingDelimiter c, '\''] <:+: ds

/-- The text starts with what the fault is about. -/
inductive Offends : LexFault → List Char → Prop
  | character {c cs} (blank : isBlank c = false) (alphabetic : isAlphabetic c = false) (digit : c.isDigit = false)
      (quote : c ≠ '\'') (doubleQuote : c ≠ '"') (symbol : ∀ s ∈ Terminal.symbols, ¬ s.1 <+: c :: cs) :
      Offends (.unexpectedCharacter c) (c :: cs)
  | string {quoting opening body} (ho : Opens quoting opening) (hb : Unclosed quoting body) :
      Offends .unterminatedString (opening ++ body)
  | quotedName {name behind} (hname : '"' ∉ name) (hend : behind = [] ∨ behind.head? = some '\n') :
      Offends .unterminatedQuotedIdentifier ('"' :: (name ++ behind))
  | comment {body} (h : ¬ ['*', '/'] <:+: body) : Offends .unterminatedComment ('/' :: '*' :: body)

private theorem Offends.ne_nil {fault : LexFault} {cs : List Char} (h : Offends fault cs) : cs ≠ [] := by
  cases h with
  | string ho hb => cases ho <;> simp
  | _ => simp

private theorem not_isInfix_of_through {a b : Char} {cs : List Char} (h : through a b cs = none) :
    ¬ [a, b] <:+: cs := by
  induction cs with
  | nil => simp
  | cons c cs ih =>
    rw [through] at h
    split at h
    · cases h
    · rename_i hc
      rw [List.infix_cons_iff]
      rintro (hstarts | hwithin)
      · obtain ⟨ds, hds⟩ := hstarts
        obtain ⟨rfl, rfl⟩ := List.cons.inj hds
        simp [startsWith] at hc
      · exact ih (Option.map_eq_none_iff.1 h) hwithin

private theorem unclosed_of_closeString {quoting : Quoting} {body : List Char} (h : closeString quoting body = none) :
    Unclosed quoting body := by
  cases quoting with
  | plain =>
    rintro closing behind rfl hcloses
    by_contra hquote
    have hsome := hcloses.closeQuote_eq (Bool.eq_false_of_not_eq_true hquote)
    rw [closeString, hsome] at h
    cases h
  | delimited =>
    rintro c ds rfl
    exact not_isInfix_of_through (Option.map_eq_none_iff.1 h)

private theorem string_offends {cs : List Char} {quoting : Quoting} {opening : Cut} {fault : LexFault}
    (ho : stringOpening? cs = some (quoting, opening)) (h : (string quoting opening).found = .error fault) :
    Offends fault cs := by
  have hwhole : opening.1 ++ opening.2 = cs := (whole_stringOpening? ho).1
  unfold string at h
  split at h
  · cases h
  · rename_i hnone
    cases h
    rw [← hwhole]
    exact .string (opens_of_stringOpening? ho) (unclosed_of_closeString hnone)

private theorem quotedName_offends {cs : List Char} {fault : LexFault} (h : (quotedName cs).found = .error fault) :
    Offends fault ('"' :: cs) := by
  have hname : '"' ∉ cs.takeWhile isQuotable := fun hmem => absurd (forall_whileIn isQuotable cs '"' hmem) (by decide)
  have hwhole : cs.takeWhile isQuotable ++ cs.dropWhile isQuotable = cs := List.takeWhile_append_dropWhile
  have hstop : startsWith isQuotable (cs.dropWhile isQuotable) = false := startsWith_whileIn isQuotable cs
  rw [← hwhole]
  unfold quotedName at h
  split at h
  · rename_i hd
    cases h
    exact .quotedName hname (.inl hd)
  · rename_i c behind hd
    have hd' : cs.dropWhile isQuotable = c :: behind := hd
    rw [hd'] at hstop ⊢
    by_cases hc : (c == '"') = true
    · rw [if_pos hc] at h
      cases h
    · rw [if_neg hc] at h
      cases h
      have hline : c = '\n' := by
        simp only [startsWith, List.head?_cons, Option.any_some, isQuotable, Bool.and_eq_false_iff, bne_eq_false_iff_eq]
          at hstop
        exact hstop.resolve_left fun hquote => hc (beq_iff_eq.2 hquote)
      exact .quotedName hname (.inr (by rw [hline]; rfl))

private theorem symbol_offends {c : Char} {cs : List Char} {fault : LexFault} (hblank : isBlank c = false)
    (halpha : isAlphabetic c = false) (hdigit : c.isDigit = false) (hquote : c ≠ '\'') (hdouble : c ≠ '"')
    (h : (symbol c cs).found = .error fault) : Offends fault (c :: cs) := by
  unfold symbol at h
  split at h
  · cases h
  · rename_i hnone
    cases h
    refine .character hblank halpha hdigit hquote hdouble ?_
    intro s hs hstarts
    exact List.find?_eq_none.1 hnone s hs (List.isPrefixOf_iff_prefix.2 hstarts)

/-- A token that is refused starts with what the fault is about. -/
theorem token_offends {cs : List Char} {fault : LexFault} (htrivia : trivia? cs = none)
    (h : (token cs).found = .error fault) : Offends fault cs := by
  cases ho : stringOpening? cs with
  | some opened =>
    rw [token_of_opening ho] at h
    exact string_offends ho h
  | none =>
    cases cs with
    | nil => cases h
    | cons c cs =>
      rw [token_cons ho] at h
      by_cases hdouble : (c == '"') = true
      · rw [if_pos hdouble] at h
        rw [beq_iff_eq.1 hdouble]
        exact quotedName_offends h
      rw [if_neg hdouble] at h
      by_cases hnumber : (c.isDigit || (c == '.' && startsWith Char.isDigit cs)) = true
      · rw [if_pos hnumber] at h
        cases h
      rw [if_neg hnumber] at h
      by_cases halpha : isAlphabetic c = true
      · rw [if_pos halpha] at h
        cases h
      rw [if_neg halpha] at h
      have hquote : c ≠ '\'' := by
        rintro rfl
        cases ho
      simp only [Bool.not_eq_true, Bool.or_eq_false_iff, beq_eq_false_iff_ne] at hnumber halpha hdouble
      exact symbol_offends (trivia?_cons_eq_none htrivia).1 halpha hnumber.1 hquote hdouble h

/-- Among the trivia only a comment without an end is refused. -/
theorem trivia?_offends {cs : List Char} {lexeme : Lexeme TriviaKind} {fault : LexFault}
    (hl : trivia? cs = some lexeme) (h : lexeme.found = .error fault) : Offends fault cs := by
  cases cs with
  | nil => cases hl
  | cons c cs =>
    rw [trivia?] at hl
    split at hl
    · cases hl
      cases h
    · split at hl
      · cases hl
        cases h
      · split at hl
        · rename_i hc
          rw [Bool.and_eq_true, beq_iff_eq] at hc
          obtain ⟨rfl, hstar⟩ := hc
          split at hl
          · cases hl
            cases h
          · rename_i hnone
            cases hl
            cases h
            cases cs with
            | nil => cases hstar
            | cons d cs =>
              obtain rfl : d = '*' := by simpa [startsWith] using hstar
              exact .comment (not_isInfix_of_through hnone)
        · cases hl

end Lexeme

/-! ### Reading a shorter text -/

namespace Lexer

open Lexeme

/-- The lexer in a text with more behind it. -/
def followedBy (a : Lexer) (rest : List Char) : Lexer := ⟨a.rest ++ rest, a.position⟩

@[simp] theorem rest_followedBy (a : Lexer) (rest : List Char) : (a.followedBy rest).rest = a.rest ++ rest := rfl

private theorem followedBy_inj {a b : Lexer} {rest : List Char} (h : a.followedBy rest = b.followedBy rest) :
    a = b := by
  obtain ⟨as, p⟩ := a
  obtain ⟨bs, q⟩ := b
  simpa [followedBy] using h

variable {a b : Lexer} {rest : List Char}

/-- A lexer that moves to what has `rest` behind it has `rest` behind it. -/
private theorem Moves.followedBy {cs : List Char} (h : a.Moves cs (b.followedBy rest)) :
    a = followedBy ⟨cs ++ b.rest, a.position⟩ rest := by
  obtain ⟨as, p⟩ := a
  simpa [Lexer.followedBy] using h.rest

private theorem trivia_of_followedBy {vs : List Trivia} (h : (a.followedBy rest).trivia = (.ok vs, b.followedBy rest)) :
    a.trivia = (.ok vs, b) := by
  generalize hl : a.followedBy rest = l at h
  fun_induction trivia l generalizing a vs with
  | case1 l hnone =>
    subst hl
    obtain ⟨hvs, hb⟩ := Prod.mk.inj h
    cases hvs
    obtain rfl := followedBy_inj hb
    exact trivia_of_none (trivia?_eq_none_of_append hnone)
  | case2 => cases h
  | case3 l lexeme hsome kind hk pieces behind ht _ =>
    rename_i ih
    subst hl
    obtain ⟨hvs, hb⟩ := Prod.mk.inj h
    cases hvs
    subst hb
    obtain ⟨found, taken, left⟩ := lexeme
    obtain rfl : found = .ok kind := hk
    -- The piece and what is read behind it lie in front of `rest`.
    have hbehind := ((trivia_covers ht).1.moves).followedBy
    have hshort := ih hbehind.symm ht
    generalize (pieces.map Trivia.piece).flatMap (·.text.toList) ++ b.rest = tail at hbehind hshort
    obtain rfl : left = tail ++ rest := congrArg Lexer.rest hbehind
    have hrest : a.rest = taken ++ tail := by
      have happend : taken ++ (tail ++ rest) = a.rest ++ rest := trivia?_append hsome
      rw [← List.append_assoc] at happend
      exact (List.append_cancel_right happend).symm
    have hpiece : trivia? (taken ++ (tail ++ rest)) = some ⟨.ok kind, taken, tail ++ rest⟩ := by
      rw [← List.append_assoc, ← hrest]
      exact hsome
    have hpiece' : trivia? a.rest = some ⟨.ok kind, taken, tail⟩ := by
      rw [hrest]
      exact trivia?_of_append hpiece
    exact trivia_of_some hpiece' rfl hshort
  | case4 => cases h

/-! One call, taken apart into the trivia and the token. -/

theorem next_of_token {s : Lexer} {vs : List Trivia} {terminal : Terminal} {taken behind : List Char}
    (hs : a.trivia = (.ok vs, s)) (ht : token s.rest = ⟨.ok terminal, taken, behind⟩) :
    a.next = (.ok ⟨terminal, String.ofList taken, ⟨s.position, s.position.after taken⟩, vs⟩,
      ⟨behind, s.position.after taken⟩) := by
  unfold next
  rw [hs]
  dsimp only
  rw [ht]
  rfl

theorem exists_of_next {t : Token} (h : a.next = (.ok t, b)) :
    ∃ vs s terminal taken, a.trivia = (.ok vs, s) ∧ token s.rest = ⟨.ok terminal, taken, b.rest⟩ ∧
      t = ⟨terminal, String.ofList taken, ⟨s.position, s.position.after taken⟩, vs⟩ ∧
      b.position = s.position.after taken := by
  unfold next at h
  split at h
  · cases h
  · rename_i vs s hs
    dsimp only at h
    split at h
    · cases h
    · rename_i terminal hfound
      cases h
      exact ⟨vs, s, terminal, _, hs, by rw [← hfound]; rfl, rfl, rfl⟩

/-- The trivia of a token are found in a shorter text, as far as it holds the token. -/
private theorem exists_of_followedBy {t : Token} (h : (a.followedBy rest).next = (.ok t, b.followedBy rest)) :
    ∃ vs p terminal taken, a.trivia = (.ok vs, ⟨taken ++ b.rest, p⟩) ∧
      token (taken ++ (b.rest ++ rest)) = ⟨.ok terminal, taken, b.rest ++ rest⟩ ∧
      t = ⟨terminal, String.ofList taken, ⟨p, p.after taken⟩, vs⟩ ∧ b.position = p.after taken := by
  obtain ⟨vs, s, terminal, taken, hs, htoken, ht, hposition⟩ := exists_of_next h
  have htaken : taken ++ (b.rest ++ rest) = s.rest := by simpa [htoken] using token_append s.rest
  have hmoves : s.Moves taken (b.followedBy rest) := ⟨htaken.symm, hposition⟩
  rw [hmoves.followedBy] at hs
  rw [← htaken] at htoken
  exact ⟨vs, s.position, terminal, taken, trivia_of_followedBy hs, htoken, ht, hposition⟩

private theorem taken_ne_nil {cs taken behind : List Char} {terminal : Terminal}
    (h : token cs = ⟨.ok terminal, taken, behind⟩) (hend : terminal ≠ .endOfInput) : taken ≠ [] := by
  have happend : taken ++ behind = cs := by simpa [h] using token_append cs
  have hlt := token_rest_lt (congrArg Lexeme.found h) hend
  rintro rfl
  rw [h, ← happend] at hlt
  exact Nat.lt_irrefl _ hlt

/-- A token is found in a shorter text, if the text is not cut in the middle of the lexeme behind it. -/
theorem next_of_followedBy {t : Token} (h : (a.followedBy rest).next = (.ok t, b.followedBy rest))
    (hend : t.terminal ≠ .endOfInput) (hcut : Intact b.rest rest) : a.next = (.ok t, b) := by
  obtain ⟨vs, p, terminal, taken, htrivia, htoken, rfl, hposition⟩ := exists_of_followedBy h
  rw [next_of_token htrivia (token_of_append hcut (taken_ne_nil htoken hend) htoken), ← hposition]

end Lexer

/-! ### The ends of lexemes -/

namespace Lexeme

private theorem intact_of_ne {cs rest : List Char} (h : ∀ c, cs ≠ [c]) : Intact cs rest :=
  ⟨fun hdot => absurd hdot (h _), fun c hc => absurd hc (h c)⟩

private theorem mem_of_isMark {c : Char} (hc : (c == 'f' || c == 'F' || c == 'd' || c == 'D') = true) :
    c ∈ ['f', 'F', 'd', 'D'] := by
  simpa [or_assoc] using hc

/-- Neither a dot nor a letter is skipped. -/
private theorem intact_of_trivia? {cs rest : List Char} {lexeme : Lexeme TriviaKind} (h : trivia? cs = some lexeme) :
    Intact cs rest := by
  constructor
  · rintro rfl
    cases h
  · rintro c rfl hc
    have hnone : trivia? [c] = none := by
      have hall : ['f', 'F', 'd', 'D'].all (fun d => (trivia? [d]).isNone) = true := by decide
      simpa using List.all_eq_true.1 hall c (mem_of_isMark hc)
    rw [hnone] at h
    cases h

private theorem token_of_dots (rest : List Char) : token ('.' :: '.' :: rest) = ⟨.ok .range, ['.', '.'], rest⟩ := by
  have ho := stringOpening?_eq_none_of_ne (c := '.') (by decide) (by decide) ('.' :: rest)
  rw [token_cons ho, if_neg (by decide), if_neg (by simp [startsWith]), if_neg (by decide)]
  rfl

/-- A letter that a number could end with starts a word. -/
private theorem token_of_letter {c : Char} (hc : (c == 'f' || c == 'F' || c == 'd' || c == 'D') = true)
    (rest : List Char) :
    token (c :: rest) = word (c :: rest) := by
  have hall : ['f', 'F', 'd', 'D'].all (fun d => d != '\'' && (d.toLower != 'n' && d.toLower != 'q') && d != '"' &&
      !d.isDigit && d != '.' && isAlphabetic d) = true := by decide
  have hletter := List.all_eq_true.1 hall c (mem_of_isMark hc)
  simp only [Bool.and_eq_true, bne_iff_ne, ne_eq, Bool.not_eq_true'] at hletter
  obtain ⟨⟨⟨⟨⟨hquote, hmark⟩, hdouble⟩, hdigit⟩, hdot⟩, halpha⟩ := hletter
  rw [token_cons (stringOpening?_eq_none_of_ne hquote hmark rest), if_neg (by simpa using hdouble),
    if_neg (by simp [hdigit, hdot]), if_pos halpha]

/-- A token holds both of two dots, and all letters of a word. -/
private theorem intact_of_token {cs rest : List Char} (h : (token (cs ++ rest)).taken = cs) : Intact cs rest := by
  constructor
  · rintro rfl
    by_contra hdots
    cases rest with
    | nil => exact hdots rfl
    | cons d rest =>
      obtain rfl : d = '.' := by simpa [startsWith] using hdots
      rw [List.singleton_append, token_of_dots] at h
      cases h
  · rintro c rfl hc
    by_contra hword
    cases rest with
    | nil => exact hword rfl
    | cons d rest =>
      have hd : isWordChar d = true := by simpa [startsWith] using hword
      have hc' : isWordChar c = true := Numeral.isWordChar_of_isMark hc
      rw [List.singleton_append, token_of_letter hc] at h
      simp [word, ofCut, Cut.whileIn, hc', hd] at h

end Lexeme

/-! ### The place of a fault -/

namespace Lexer

open Lexeme

variable {a b : Lexer}

/-- The tokens that are found before the first fault or before the end of the input. -/
def produced (lexer : Lexer) : List Token :=
  match _h : lexer.next with
  | (.error _, _) => []
  | (.ok token, behind) => if _hend : token.terminal = .endOfInput then [] else token :: produced behind
termination_by lexer.rest.length
decreasing_by exact next_rest_lt _h _hend

private theorem produced_of_error {e : LexError} (h : a.next = (.error e, b)) : a.produced = [] := by
  rw [produced]
  split
  · rfl
  · rename_i heq
    rw [h] at heq
    cases heq

private theorem produced_of_token {t : Token} (h : a.next = (.ok t, b)) (ht : t.terminal ≠ .endOfInput) :
    a.produced = t :: b.produced := by
  rw [produced]
  split
  · rename_i heq
    rw [h] at heq
    cases heq
  · rename_i heq
    rw [h] at heq
    cases heq
    rw [dif_neg ht]

private theorem intact_of_next {rest : List Char} {t : Token}
    (h : (a.followedBy rest).next = (.ok t, b.followedBy rest)) (hend : t.terminal ≠ .endOfInput) :
    Intact a.rest rest := by
  obtain ⟨vs, p, terminal, taken, htrivia, htoken, rfl, -⟩ := exists_of_followedBy h
  cases hfirst : trivia? a.rest with
  | some lexeme => exact intact_of_trivia? hfirst
  | none =>
    -- The text starts with the token.  If it is but one character, the token is this character.
    rw [trivia_of_none hfirst] at htrivia
    have hrest : a.rest = taken ++ b.rest := congrArg (fun r => r.2.rest) htrivia
    by_cases hsingle : b.rest = []
    · rw [hrest, hsingle, List.append_nil]
      rw [hsingle, List.nil_append] at htoken
      exact intact_of_token (by rw [htoken])
    · refine intact_of_ne fun c hc => ?_
      have hlength := congrArg List.length (hrest.symm.trans hc)
      have htaken := List.length_pos_iff.2 (taken_ne_nil htoken hend)
      have hb := List.length_pos_iff.2 hsingle
      simp only [List.length_append, List.length_singleton] at hlength
      omega

private theorem intact_of_trivia {rest : List Char} {vs : List Trivia} (h : a.trivia = (.ok vs, b)) (hb : b.rest = []) :
    Intact a.rest rest := by
  cases hfirst : trivia? a.rest with
  | some lexeme => exact intact_of_trivia? hfirst
  | none =>
    rw [trivia_of_none hfirst] at h
    cases h
    rw [hb]
    exact intact_of_ne (by simp)

private theorem trivia?_eq_none_of_trivia {vs : List Trivia} (h : a.trivia = (.ok vs, b)) : trivia? b.rest = none := by
  fun_induction trivia a generalizing vs with
  | case1 a hnone =>
    cases h
    exact hnone
  | case2 => cases h
  | case3 a lexeme _ kind _ pieces behind ht _ =>
    rename_i ih
    cases h
    exact ih ht
  | case4 => cases h

/-- The text of `a` is that of `c` and then `rest`.  In the first there are only trivia, and the second starts with what
the fault is about. -/
structure Stops (a c : Lexer) (rest : List Char) (e : LexError) : Prop where
  eq_followedBy : a = c.followedBy rest
  trivia : ∃ vs, c.trivia = (.ok vs, ⟨[], c.position.after c.rest⟩)
  position : e.position = c.position.after c.rest
  offends : Offends e.fault rest

private theorem trivia_stops {e : LexError} (h : a.trivia = (.error e, b)) : ∃ c rest, a.Stops c rest e := by
  fun_induction trivia a with
  | case1 => cases h
  | case2 a lexeme hl fault hf =>
    cases h
    exact ⟨⟨[], a.position⟩, a.rest, rfl, ⟨[], trivia_of_none rfl⟩, rfl, trivia?_offends hl hf⟩
  | case3 => cases h
  | case4 a lexeme hl kind hk e' behind ht ih =>
    cases h
    obtain ⟨c, rest, hc, ⟨vs, hvs⟩, hposition, hoffends⟩ := ih ht
    obtain ⟨found, taken, left⟩ := lexeme
    obtain rfl : found = .ok kind := hk
    obtain rfl : left = c.rest ++ rest := congrArg Lexer.rest hc
    have hplace : a.position.after taken = c.position := congrArg Lexer.position hc
    have happend : taken ++ (c.rest ++ rest) = a.rest := trivia?_append hl
    rw [← happend] at hl
    have hpast : past ⟨taken ++ c.rest, a.position⟩ (⟨.ok kind, taken, c.rest⟩ : Lexeme TriviaKind) = c := by
      rw [past, hplace]
    have hend : a.position.after (taken ++ c.rest) = c.position.after c.rest := by
      rw [Position.after_append, hplace]
    refine ⟨⟨taken ++ c.rest, a.position⟩, rest, ?_, ?_, hposition.trans hend.symm, hoffends⟩
    · rw [followedBy, List.append_assoc, happend]
    · rw [hend]
      exact ⟨_, trivia_of_some (trivia?_of_append hl) rfl (by rw [hpast]; exact hvs)⟩

private theorem next_stops {e : LexError} (h : a.next = (.error e, b)) : ∃ c rest, a.Stops c rest e := by
  unfold next at h
  split at h
  · rename_i htrivia
    cases h
    exact trivia_stops htrivia
  · rename_i vs s hs
    dsimp only at h
    split at h
    · rename_i fault hfault
      cases h
      have hmoves := (trivia_covers hs).1.moves
      generalize (vs.map Trivia.piece).flatMap (·.text.toList) = cs at hmoves
      have ha : a = followedBy ⟨cs, a.position⟩ s.rest := by
        rw [followedBy, ← hmoves.rest]
      rw [ha] at hs
      have hshort : trivia ⟨cs, a.position⟩ = (.ok vs, ⟨[], s.position⟩) := trivia_of_followedBy hs
      rw [hmoves.position] at hshort
      exact ⟨⟨cs, a.position⟩, s.rest, ha, ⟨vs, hshort⟩, hmoves.position,
        token_offends (trivia?_eq_none_of_trivia hs) hfault⟩
    · cases h

/-- The text of `a` is that of `c` and then `rest`.  The first has the tokens that were found before the fault, and the
second starts with what the fault is about. -/
structure Refused (a c : Lexer) (rest : List Char) (e : LexError) : Prop where
  eq_followedBy : a = c.followedBy rest
  intact : Intact c.rest rest
  tokens : ∃ last, c.tokens = .ok (a.produced ++ [last]) ∧ last.terminal = .endOfInput
  position : e.position = c.position.after c.rest
  offends : Offends e.fault rest

private theorem Stops.refused {c : Lexer} {rest : List Char} {e : LexError} (h : a.Stops c rest e)
    (hnext : a.next = (.error e, b)) : a.Refused c rest e := by
  obtain ⟨vs, hvs⟩ := h.trivia
  have hlast := next_of_token hvs (rfl : token [] = ⟨.ok .endOfInput, [], []⟩)
  have htokens := tokens_of_last hlast rfl
  refine ⟨h.eq_followedBy, intact_of_trivia hvs rfl, ?_, h.position, h.offends⟩
  rw [produced_of_error hnext]
  exact ⟨_, htokens, rfl⟩

/-- A token in front of a text that is refused. -/
private theorem Refused.cons {c : Lexer} {rest : List Char} {e : LexError} {t : Token} (h : b.Refused c rest e)
    (hnext : a.next = (.ok t, b)) (ht : t.terminal ≠ .endOfInput) : ∃ d, a.Refused d rest e := by
  have hmoves := (next_takes hnext).covers.moves
  generalize t.pieces.flatMap (·.text.toList) = cs at hmoves
  rw [h.eq_followedBy] at hmoves
  have ha := hmoves.followedBy
  have hlong := hnext
  rw [h.eq_followedBy, ha] at hlong
  have hshort := next_of_followedBy hlong ht h.intact
  obtain ⟨last, htokens, hlast⟩ := h.tokens
  refine ⟨⟨cs ++ c.rest, a.position⟩, ha, intact_of_next hlong ht, ⟨last, ?_, hlast⟩, ?_, h.offends⟩
  · rw [produced_of_token hnext ht, List.cons_append]
    exact tokens_of_cons hshort ht htokens
  · rw [h.position, Position.after_append, ← hmoves.position]
    rfl

theorem tokens_refused {e : LexError} (h : a.tokens = .error e) : ∃ c rest, a.Refused c rest e := by
  fun_induction tokens a with
  | case1 a e' b hnext =>
    cases h
    obtain ⟨c, rest, hstops⟩ := next_stops hnext
    exact ⟨c, rest, hstops.refused hnext⟩
  | case2 => cases h
  | case3 => cases h
  | case4 a t b hnext ht e' hb ih =>
    cases h
    obtain ⟨c, rest, hrefused⟩ := ih hb
    obtain ⟨d, hd⟩ := hrefused.cons hnext ht
    exact ⟨d, rest, hd⟩

end Lexer

/-- A text without tokens is refused at one place, which is the place of the error.  The text in front of it has the
tokens that were found before the error, and the end of the input; the text behind it starts with what the fault is
about. -/
theorem tokenize_refused (text : String) (e : LexError) (h : tokenize text = .error e) :
    ∃ front rest : String, text = front ++ rest ∧ e.position.IsBehind front.toList ∧
      (∃ last, tokenize front = .ok ((Lexer.ofText text).produced ++ [last]) ∧ last.terminal = .endOfInput) ∧
      rest ≠ "" ∧ Lexeme.Offends e.fault rest.toList := by
  obtain ⟨⟨cs, p⟩, rest, hrefused⟩ := Lexer.tokens_refused h
  obtain ⟨heq, -, htokens, hposition, hoffends⟩ := hrefused
  have htext : text.toList = cs ++ rest := congrArg Lexer.rest heq
  obtain rfl : Position.start = p := congrArg Lexer.position heq
  refine ⟨String.ofList cs, String.ofList rest, ?_, ?_, ?_, ?_, ?_⟩
  · rw [← String.toList_inj, String.toList_append, String.toList_ofList, String.toList_ofList, htext]
  · rw [hposition, String.toList_ofList]
    exact Position.isBehind_start.after cs
  · rw [tokenize, Lexer.ofText, String.toList_ofList]
    exact htokens
  · rw [ne_eq, String.ofList_eq_empty_iff]
    exact hoffends.ne_nil
  · rw [String.toList_ofList]
    exact hoffends

/-- A string at whose end a quote is doubled, behind a number in front of a range and a comment. -/
theorem tokenize_refused_quotes :
    tokenize "1..--x\n'ab''" = .error ⟨.unterminatedString, ⟨2, 0, 7⟩⟩ ∧
    ∃ front rest : String, "1..--x\n'ab''" = front ++ rest ∧ Position.IsBehind ⟨2, 0, 7⟩ front.toList ∧
      (∃ last, tokenize front = .ok ((Lexer.ofText "1..--x\n'ab''").produced ++ [last]) ∧
        last.terminal = .endOfInput) ∧
      rest ≠ "" ∧ Lexeme.Offends .unterminatedString rest.toList := by
  have h : tokenize "1..--x\n'ab''" = .error ⟨.unterminatedString, ⟨2, 0, 7⟩⟩ := by decide +kernel
  exact ⟨h, tokenize_refused _ _ h⟩

end PlsqlLint
