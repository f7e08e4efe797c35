import PlsqlLint.Proofs.Literal

/-!
# Lexemes of a shortened text

A lexeme stays what it is when the text is cut off somewhere behind it: what does not go on with the lexeme does not go
on with it in a shorter text either.  There are two exceptions, both at the end of a number.  The dot of `1.` belongs to
the number, but the dots of `1..` do not; the letter of `1d` belongs to the number, but the letters of `1dx` do not.  So
the text must not be cut in the middle of the lexeme that follows (`Intact`).

* `trivia?_of_append` and `trivia?_eq_none_of_append` are about blanks and comments.
* `token_of_append` is about tokens.
-/

namespace PlsqlLint.Lexeme

/-! ### What a shorter text starts with -/

private theorem startsWith_of_append {p : Char → Bool} {cs rest : List Char} (h : startsWith p (cs ++ rest) = false) :
    startsWith p cs = false := by
  cases cs with
  | nil => rfl
  | cons c cs => exact h

private theorem startsWith_of_append_true {p : Char → Bool} {cs rest : List Char}
    (hnil : cs = [] → startsWith p rest = false) (h : startsWith p (cs ++ rest) = true) : startsWith p cs = true := by
  cases cs with
  | nil => exact absurd h (by simp [hnil rfl])
  | cons c cs => exact h

theorem startsWith_whileIn (p : Char → Bool) (cs : List Char) : startsWith p (Cut.whileIn p cs).2 = false := by
  induction cs with
  | nil => rfl
  | cons c cs ih =>
    by_cases hc : p c = true
    · simpa [Cut.whileIn, hc] using ih
    · simp [Cut.whileIn, hc, startsWith]

private theorem whileIn_of_append {p : Char → Bool} {taken tail rest : List Char}
    (h : Cut.whileIn p (taken ++ (tail ++ rest)) = (taken, tail ++ rest)) :
    Cut.whileIn p (taken ++ tail) = (taken, tail) := by
  have htaken := forall_whileIn p (taken ++ (tail ++ rest))
  have hstop := startsWith_whileIn p (taken ++ (tail ++ rest))
  rw [h] at htaken hstop
  exact whileIn_append htaken (startsWith_of_append hstop)

/-! ### Numbers -/

/-- The text `cs` does not end in the middle of two dots, nor behind the first letter of a word if a number could end
with that letter. -/
structure Intact (cs rest : List Char) : Prop where
  dot : cs = ['.'] → startsWith (· == '.') rest = false
  letter : ∀ c, cs = [c] → (c == 'f' || c == 'F' || c == 'd' || c == 'D') = true → startsWith isWordChar rest = false

private theorem fraction_of_append {taken tail rest : List Char}
    (hdot : tail = ['.'] → startsWith (· == '.') rest = false)
    (h : fraction (taken ++ (tail ++ rest)) = (taken, tail ++ rest)) : fraction (taken ++ tail) = (taken, tail) := by
  cases taken with
  | nil =>
    cases tail with
    | nil => rfl
    | cons c tail =>
      by_cases hc : c = '.'
      · subst hc
        -- The dot was left because another one follows, which is still there.
        have hdots : startsWith (· == '.') (tail ++ rest) = true := by
          by_contra hdots
          simp [fraction, hdots, Cut.after] at h
        have hdots' : startsWith (· == '.') tail = true :=
          startsWith_of_append_true (fun hnil => hdot (by rw [hnil])) hdots
        simp [fraction, hdots', Cut.nothing]
      · simp [fraction, hc, Cut.nothing]
  | cons c taken =>
    by_cases hc : c = '.'
    · subst hc
      by_cases hdots : startsWith (· == '.') (taken ++ (tail ++ rest)) = true
      · simp [fraction, hdots, Cut.nothing] at h
      · have hdots' : startsWith (· == '.') (taken ++ tail) = false := by
          rw [← List.append_assoc] at hdots
          exact startsWith_of_append (Bool.eq_false_of_not_eq_true hdots)
        simp only [List.cons_append, fraction, hdots, Cut.after, Bool.false_eq_true, if_false, Prod.mk.injEq,
          List.cons_append, List.nil_append, List.cons.injEq, true_and] at h
        have hdigits := whileIn_of_append (Prod.ext h.1 h.2)
        simp [fraction, hdots', hdigits, Cut.after]
    · simp [fraction, hc, Cut.nothing] at h

private theorem startsWith_sign {cs rest : List Char} (h : startsWith Char.isDigit (sign (cs ++ rest)).2 = false) :
    startsWith Char.isDigit (sign cs).2 = false := by
  cases cs with
  | nil => rfl
  | cons c cs =>
    by_cases hc : (c == '+' || c == '-') = true
    · simp only [List.cons_append, sign, hc, if_true] at h ⊢
      exact startsWith_of_append h
    · simp only [List.cons_append, sign, hc, Cut.nothing] at h ⊢
      exact h

/-- The digits of an exponent are all there are. -/
private theorem startsWith_exponent {cs : List Char} (h : (exponent cs).1 ≠ []) :
    startsWith Char.isDigit (exponent cs).2 = false := by
  unfold exponent at h ⊢
  split
  · split
    · exact startsWith_whileIn Char.isDigit _
    · simp_all [Cut.nothing]
  · simp_all [Cut.nothing]

private theorem exponent_of_append {taken tail rest : List Char}
    (h : exponent (taken ++ (tail ++ rest)) = (taken, tail ++ rest)) : exponent (taken ++ tail) = (taken, tail) := by
  cases taken with
  | nil =>
    cases tail with
    | nil => rfl
    | cons c tail =>
      by_cases hc : (c == 'e' || c == 'E') = true
      · have hdigit : startsWith Char.isDigit (sign (tail ++ rest)).2 = false := by
          by_contra hdigit
          simp [exponent, hc, Bool.eq_true_of_not_eq_false hdigit, Cut.after] at h
        simp [exponent, startsWith_sign hdigit, Cut.nothing]
      · simp [exponent, hc, Cut.nothing]
  | cons c taken =>
    have hexponent := Numeral.isExponent_exponent (c :: taken ++ (tail ++ rest))
    have hdigit := @startsWith_exponent (c :: taken ++ (tail ++ rest)) (by rw [h]; simp)
    rw [h] at hexponent hdigit
    exact Numeral.exponent_append hexponent (startsWith_of_append hdigit) (by simp)

private theorem floatMark_of_append {taken tail rest : List Char} (hcut : Intact tail rest)
    (h : floatMark (taken ++ (tail ++ rest)) = (taken, tail ++ rest)) : floatMark (taken ++ tail) = (taken, tail) := by
  cases taken with
  | nil =>
    cases tail with
    | nil => rfl
    | cons c tail =>
      by_cases hc : (c == 'f' || c == 'F' || c == 'd' || c == 'D') = true
      · -- The letter was left because a word goes on behind it, and this word is still there.
        have hword : startsWith isWordChar (tail ++ rest) = true := by
          by_contra hword
          simp [floatMark, hc, Bool.eq_false_of_not_eq_true hword] at h
        have hword' : startsWith isWordChar tail = true :=
          startsWith_of_append_true (fun hnil => hcut.letter c (by rw [hnil]) hc) hword
        simp [floatMark, hword', Cut.nothing]
      · simp [floatMark, hc, Cut.nothing]
  | cons c taken =>
    by_cases hmark : ((c == 'f' || c == 'F' || c == 'd' || c == 'D') &&
        !startsWith isWordChar (taken ++ (tail ++ rest))) = true
    · simp only [List.cons_append, floatMark, hmark, if_true, Prod.mk.injEq, List.cons.injEq, true_and] at h
      obtain ⟨rfl, -⟩ := h
      rw [Bool.and_eq_true, Bool.not_eq_true'] at hmark
      have hword : startsWith isWordChar tail = false := startsWith_of_append hmark.2
      simp [floatMark, hmark.1, hword]
    · simp [floatMark, hmark, Cut.nothing] at h

/-- The parts of a number, each cut off from what the ones before it leave. -/
private theorem number_parts {cs taken rest : List Char} (h : number cs = (taken, rest)) :
    ∃ whole frac expo mark, taken = whole ++ (frac ++ (expo ++ mark)) ∧
      Cut.whileIn Char.isDigit cs = (whole, frac ++ (expo ++ (mark ++ rest))) ∧
      fraction (frac ++ (expo ++ (mark ++ rest))) = (frac, expo ++ (mark ++ rest)) ∧
      exponent (expo ++ (mark ++ rest)) = (expo, mark ++ rest) ∧ floatMark (mark ++ rest) = (mark, rest) := by
  rcases hw : Cut.whileIn Char.isDigit cs with ⟨whole, cs1⟩
  rcases hf : fraction cs1 with ⟨frac, cs2⟩
  rcases he : exponent cs2 with ⟨expo, cs3⟩
  rcases hm : floatMark cs3 with ⟨mark, cs4⟩
  have h1 : frac ++ cs2 = cs1 := by simpa [Cut.whole, hf] using whole_fraction cs1
  have h2 : expo ++ cs3 = cs2 := by simpa [Cut.whole, he] using whole_exponent cs2
  have h3 : mark ++ cs4 = cs3 := by simpa [Cut.whole, hm] using whole_floatMark cs3
  simp only [number, Cut.andThen, hw, hf, he, hm, Prod.mk.injEq] at h
  obtain ⟨rfl, rfl⟩ := h
  subst h3 h2 h1
  exact ⟨whole, frac, expo, mark, by simp, rfl, hf, he, hm⟩

private theorem number_of_parts {whole frac expo mark rest : List Char}
    (hw : Cut.whileIn Char.isDigit (whole ++ (frac ++ (expo ++ (mark ++ rest)))) =
      (whole, frac ++ (expo ++ (mark ++ rest))))
    (hf : fraction (frac ++ (expo ++ (mark ++ rest))) = (frac, expo ++ (mark ++ rest)))
    (he : exponent (expo ++ (mark ++ rest)) = (expo, mark ++ rest)) (hm : floatMark (mark ++ rest) = (mark, rest)) :
    number (whole ++ (frac ++ (expo ++ mark)) ++ rest) = (whole ++ (frac ++ (expo ++ mark)), rest) := by
  simp [number, Cut.andThen, hw, hf, he, hm]

/-- A dot behind the fraction of a number is behind the number. -/
private theorem eq_dot_of_parts {expo mark tail : List Char} (he : Numeral.IsExponent expo) (hm : Numeral.IsMark mark)
    (h : expo ++ (mark ++ tail) = ['.']) : tail = ['.'] := by
  have hexpo : startsWith (· == '.') expo = false := he.startsWith (by decide)
  have hmark : startsWith (· == '.') mark = false := hm.startsWith (by decide)
  cases expo with
  | cons c expo =>
    obtain ⟨rfl, -⟩ := List.cons.inj h
    exact absurd hexpo (by simp [startsWith])
  | nil =>
    cases mark with
    | cons c mark =>
      obtain ⟨rfl, -⟩ := List.cons.inj h
      exact absurd hmark (by simp [startsWith])
    | nil => exact h

private theorem number_of_append {taken tail rest : List Char} (hcut : Intact tail rest)
    (h : number (taken ++ (tail ++ rest)) = (taken, tail ++ rest)) : number (taken ++ tail) = (taken, tail) := by
  obtain ⟨whole, frac, expo, mark, rfl, hw, hf, he, hm⟩ := number_parts h
  have hexpo : Numeral.IsExponent expo := by
    simpa [he] using Numeral.isExponent_exponent (expo ++ (mark ++ (tail ++ rest)))
  have hmark : Numeral.IsMark mark := by simpa [hm] using Numeral.isMark_floatMark (mark ++ (tail ++ rest))
  -- What each part leaves is a text in front of `rest`.
  replace hw : Cut.whileIn Char.isDigit (whole ++ ((frac ++ (expo ++ (mark ++ tail))) ++ rest)) =
      (whole, (frac ++ (expo ++ (mark ++ tail))) ++ rest) := by simpa using hw
  replace hf : fraction (frac ++ ((expo ++ (mark ++ tail)) ++ rest)) = (frac, (expo ++ (mark ++ tail)) ++ rest) := by
    simpa using hf
  replace he : exponent (expo ++ ((mark ++ tail) ++ rest)) = (expo, (mark ++ tail) ++ rest) := by simpa using he
  have hdot : expo ++ (mark ++ tail) = ['.'] → startsWith (· == '.') rest = false := fun h =>
    hcut.dot (eq_dot_of_parts hexpo hmark h)
  exact number_of_parts (whileIn_of_append hw) (fraction_of_append hdot hf) (exponent_of_append he)
    (floatMark_of_append hcut hm)

/-! ### Strings -/

/-- A quote that closes a string is not followed by another one. -/
private theorem startsWith_closeQuote {cs : List Char} {cut : Cut} (h : closeQuote cs = some cut) :
    startsWith (· == '\'') cut.2 = false := by
  fun_induction closeQuote cs generalizing cut with
  | case1 => cases h
  | case2 cs ih =>
    obtain ⟨inner, hi, rfl⟩ := Option.map_eq_some_iff.1 h
    have hinner := ih hi
    exact hinner
  | case3 cs hne =>
    cases h
    cases cs with
    | nil => rfl
    | cons d cs =>
      have hd : d ≠ '\'' := by
        rintro rfl
        exact hne cs rfl
      simpa [startsWith] using hd
  | case4 c cs _ _ ih =>
    obtain ⟨inner, hi, rfl⟩ := Option.map_eq_some_iff.1 h
    have hinner := ih hi
    exact hinner

private theorem closeString_of_append {quoting : Quoting} {taken tail rest : List Char}
    (h : closeString quoting (taken ++ (tail ++ rest)) = some (taken, tail ++ rest)) :
    closeString quoting (taken ++ tail) = some (taken, tail) := by
  cases quoting with
  | plain =>
    have hquote : startsWith (· == '\'') (tail ++ rest) = false := startsWith_closeQuote h
    exact (closesPlain_of_closeQuote h).closeQuote_eq (startsWith_of_append hquote)
  | delimited =>
    obtain ⟨c, ds, rfl, hds⟩ := closes_of_closeString h
    simp [closeString, closeDelimited, hds.through_eq, Cut.after]

private theorem stringOpening?_of_append {cs rest : List Char} (h : stringOpening? (cs ++ rest) = none) :
    stringOpening? cs = none := by
  by_contra hsome
  obtain ⟨⟨quoting, opening⟩, ho⟩ := Option.ne_none_iff_exists'.1 hsome
  have hwhole : opening.1 ++ opening.2 = cs := (whole_stringOpening? ho).1
  have hopens := (opens_of_stringOpening? ho).stringOpening?_eq (opening.2 ++ rest)
  rw [← List.append_assoc, hwhole, h] at hopens
  cases hopens

/-! ### Tokens -/

/-- The longest symbol in front of a text is the longest one in front of every shorter text that still holds it. -/
private theorem find?_symbols_of_append {s : List Char × Terminal} {tail rest : List Char}
    (h : Terminal.symbols.find? (·.1.isPrefixOf (s.1 ++ (tail ++ rest))) = some s) :
    Terminal.symbols.find? (·.1.isPrefixOf (s.1 ++ tail)) = some s := by
  obtain ⟨-, before, behind, hsymbols, hbefore⟩ := List.find?_eq_some_iff_append.1 h
  refine List.find?_eq_some_iff_append.2 ⟨?_, before, behind, hsymbols, ?_⟩
  · exact List.isPrefixOf_iff_prefix.2 (List.prefix_append _ _)
  · intro t ht
    have hlonger := hbefore t ht
    rw [Bool.not_eq_true', ← Bool.not_eq_true, List.isPrefixOf_iff_prefix] at hlonger ⊢
    rw [← List.append_assoc] at hlonger
    exact fun hstarts => hlonger (hstarts.trans (List.prefix_append _ _))

private theorem symbol_of_append {c : Char} {taken tail rest : List Char} {terminal : Terminal}
    (h : symbol c (taken ++ (tail ++ rest)) = ⟨.ok terminal, c :: taken, tail ++ rest⟩) :
    symbol c (taken ++ tail) = ⟨.ok terminal, c :: taken, tail⟩ := by
  unfold symbol at h
  split at h
  · rename_i spelling found hfind
    simp only [ofCut, Lexeme.mk.injEq, Except.ok.injEq] at h
    obtain ⟨rfl, htaken, -⟩ := h
    have hstart := List.find?_some hfind
    have hspelling : spelling = c :: taken :=
      (List.prefix_iff_eq_take.1 (List.isPrefixOf_iff_prefix.1 hstart)).trans htaken
    subst hspelling
    have hfind' := @find?_symbols_of_append (c :: taken, found) tail rest hfind
    rw [symbol, ← List.cons_append, hfind']
    simp [ofCut]
  · cases h

private theorem quotedName_of_append {taken tail rest : List Char} {terminal : Terminal}
    (h : quotedName (taken ++ (tail ++ rest)) = ⟨.ok terminal, '"' :: taken, tail ++ rest⟩) :
    quotedName (taken ++ tail) = ⟨.ok terminal, '"' :: taken, tail⟩ := by
  obtain ⟨body, hbody, rfl, rfl⟩ :
      ∃ body, (∀ c ∈ body, isQuotable c = true) ∧ body ++ ['"'] = taken ∧ .quotedIdentifier = terminal := by
    unfold quotedName at h
    split at h
    · cases h
    · rename_i c behind hbehind
      by_cases hc : (c == '"') = true
      · rw [if_pos hc, beq_iff_eq.1 hc] at h
        simp only [ofCut, Lexeme.mk.injEq, Except.ok.injEq, List.cons_append, List.cons.injEq, true_and] at h
        exact ⟨_, forall_whileIn isQuotable _, h.2.1, h.1⟩
      · rw [if_neg hc] at h
        cases h
  rw [List.append_assoc, List.singleton_append, quotedName_eq hbody]
  rfl

private theorem word_of_append {taken tail rest : List Char} {terminal : Terminal}
    (h : word (taken ++ (tail ++ rest)) = ⟨.ok terminal, taken, tail ++ rest⟩) :
    word (taken ++ tail) = ⟨.ok terminal, taken, tail⟩ := by
  simp only [word, ofCut, Lexeme.mk.injEq, Except.ok.injEq] at h
  obtain ⟨rfl, htaken, hrest⟩ := h
  rw [word, whileIn_of_append (Prod.ext htaken hrest), htaken]
  rfl

/-- The end of a string is found in a shorter text. -/
private theorem string_of_append {quoting : Quoting} {opening : Cut} {taken tail rest : List Char} {terminal : Terminal}
    (h : string quoting opening = ⟨.ok terminal, taken, tail ++ rest⟩) :
    ∃ body, taken = opening.1 ++ body ∧ string quoting (opening.1, body ++ tail) = ⟨.ok terminal, taken, tail⟩ := by
  unfold string at h
  split at h
  · rename_i cut hcut
    simp only [ofCut, Cut.after, Lexeme.mk.injEq, Except.ok.injEq] at h
    obtain ⟨rfl, rfl, hrest⟩ := h
    have hwhole : cut.1 ++ cut.2 = opening.2 := whole_closeString hcut
    rw [← hwhole, hrest] at hcut
    have hclosed := closeString_of_append (hcut.trans (congrArg some (Prod.ext rfl hrest)))
    refine ⟨cut.1, rfl, ?_⟩
    rw [string, hclosed]
    rfl
  · cases h

/-- The beginning of a number is found in a shorter text that still holds the number. -/
private theorem startsNumber_of_append {c : Char} {cs taken tail : List Char}
    (h : (c.isDigit || (c == '.' && startsWith Char.isDigit cs)) = true) (htaken : (number (c :: cs)).1 = c :: taken) :
    (c.isDigit || (c == '.' && startsWith Char.isDigit (taken ++ tail))) = true := by
  obtain ⟨d, ds, hd, hstart⟩ := (Numeral.wellFormed_ofText h).text_eq
  rw [Numeral.text_ofText, htaken] at hd
  obtain ⟨rfl, rfl⟩ := List.cons.inj hd
  rcases hstart with hdigit | ⟨rfl, hdigit⟩
  · rw [hdigit, Bool.true_or]
  · cases taken with
    | nil => cases hdigit
    | cons e taken =>
      have he : startsWith Char.isDigit (e :: taken ++ tail) = true := hdigit
      rw [he]
      rfl

theorem token_of_append {taken tail rest : List Char} {terminal : Terminal} (hcut : Intact tail rest)
    (hne : taken ≠ []) (h : token (taken ++ (tail ++ rest)) = ⟨.ok terminal, taken, tail ++ rest⟩) :
    token (taken ++ tail) = ⟨.ok terminal, taken, tail⟩ := by
  cases ho : stringOpening? (taken ++ (tail ++ rest)) with
  | some opened =>
    obtain ⟨quoting, opening⟩ := opened
    rw [token_of_opening ho] at h
    obtain ⟨body, rfl, hstring⟩ := string_of_append h
    have ho' := (opens_of_stringOpening? ho).stringOpening?_eq (body ++ tail)
    rw [List.append_assoc, token_of_opening ho', hstring]
  | none =>
    have ho' : stringOpening? (taken ++ tail) = none := by
      rw [← List.append_assoc] at ho
      exact stringOpening?_of_append ho
    obtain ⟨c, taken, rfl⟩ := List.exists_cons_of_ne_nil hne
    rw [List.cons_append] at ho ho' h ⊢
    rw [token_cons ho] at h
    rw [token_cons ho']
    by_cases hquote : (c == '"') = true
    · rw [if_pos hquote] at h ⊢
      rw [beq_iff_eq.1 hquote] at h ⊢
      exact quotedName_of_append h
    rw [if_neg hquote] at h ⊢
    by_cases hnumber : (c.isDigit || (c == '.' && startsWith Char.isDigit (taken ++ (tail ++ rest)))) = true
    · rw [if_pos hnumber] at h
      simp only [ofCut, Lexeme.mk.injEq] at h
      have hshort := @number_of_append (c :: taken) tail rest hcut (Prod.ext h.2.1 h.2.2)
      rw [List.cons_append] at hshort
      rw [if_pos (startsNumber_of_append hnumber h.2.1), hshort, ← h.1]
      rfl
    have hnumber' : ¬ (c.isDigit || (c == '.' && startsWith Char.isDigit (taken ++ tail))) = true := by
      simp only [Bool.not_eq_true, Bool.or_eq_false_iff, Bool.and_eq_false_iff] at hnumber ⊢
      rw [← List.append_assoc] at hnumber
      exact ⟨hnumber.1, hnumber.2.imp_right startsWith_of_append⟩
    rw [if_neg hnumber] at h
    rw [if_neg hnumber']
    by_cases hc : isAlphabetic c = true
    · rw [if_pos hc] at h ⊢
      exact @word_of_append (c :: taken) tail rest terminal h
    rw [if_neg hc] at h ⊢
    exact symbol_of_append h

/-! ### Blanks and comments -/

/-- Where no blank and no comment starts. -/
theorem trivia?_cons_eq_none {c : Char} {cs : List Char} (h : trivia? (c :: cs) = none) :
    isBlank c = false ∧ (c = '-' → startsWith (· == '-') cs = false) ∧
      (c = '/' → startsWith (· == '*') cs = false) := by
  rw [trivia?] at h
  split at h
  · cases h
  · rename_i hblank
    split at h
    · cases h
    · rename_i hline
      split at h
      · split at h <;> cases h
      · rename_i hblock
        simp only [Bool.and_eq_true, beq_iff_eq, not_and, Bool.not_eq_true] at hblank hline hblock
        exact ⟨hblank, hline, hblock⟩

theorem trivia?_eq_none_of_append {cs rest : List Char} (h : trivia? (cs ++ rest) = none) : trivia? cs = none := by
  cases cs with
  | nil => rfl
  | cons c cs =>
    obtain ⟨hblank, hline, hblock⟩ := trivia?_cons_eq_none h
    exact trivia?_cons hblank (fun hc => startsWith_of_append (hline hc)) (fun hc => startsWith_of_append (hblock hc))

/-- What is skipped in front of what follows, by kinds. -/
inductive Skips : TriviaKind → List Char → List Char → Prop
  | blanks {c cs rest} (hc : isBlank c = true) (h : ∀ d ∈ cs, isBlank d = true)
      (hrest : startsWith isBlank rest = false) : Skips .whitespace (c :: cs) rest
  | line {cs rest} (h : ∀ d ∈ cs, (d != '\n') = true) (hrest : startsWith (· != '\n') rest = false) :
      Skips .lineComment ('-' :: '-' :: cs) rest
  | block {cs rest} (h : Reaches '*' '/' cs) : Skips .blockComment ('/' :: '*' :: cs) rest

private theorem skips_of_trivia? {cs taken rest : List Char} {kind : TriviaKind}
    (h : trivia? cs = some ⟨.ok kind, taken, rest⟩) : Skips kind taken rest := by
  cases cs with
  | nil => cases h
  | cons c cs =>
    rw [trivia?] at h
    by_cases hblank : isBlank c = true
    · rw [if_pos hblank] at h
      have hall := forall_whileIn isBlank (c :: cs)
      have hstop := startsWith_whileIn isBlank (c :: cs)
      cases h
      simp only [Cut.whileIn, List.takeWhile_cons, hblank, if_true] at hall hstop ⊢
      exact .blanks hblank (fun d hd => hall d (List.mem_cons_of_mem _ hd)) hstop
    rw [if_neg hblank] at h
    by_cases hline : (c == '-' && startsWith (· == '-') cs) = true
    · rw [if_pos hline] at h
      rw [Bool.and_eq_true, beq_iff_eq] at hline
      obtain ⟨rfl, hdash⟩ := hline
      cases cs with
      | nil => cases hdash
      | cons d cs =>
        obtain rfl : d = '-' := by simpa [startsWith] using hdash
        have hcut : Cut.whileIn (· != '\n') ('-' :: '-' :: cs) =
            ('-' :: '-' :: (Cut.whileIn (· != '\n') cs).1, (Cut.whileIn (· != '\n') cs).2) := rfl
        rw [hcut] at h
        cases h
        exact .line (forall_whileIn _ cs) (startsWith_whileIn _ cs)
    rw [if_neg hline] at h
    by_cases hblock : (c == '/' && startsWith (· == '*') cs) = true
    · rw [if_pos hblock] at h
      split at h
      · rename_i cut hcut
        cases h
        exact .block (reaches_of_through hcut)
      · cases h
    · rw [if_neg hblock] at h
      cases h

private theorem Skips.trivia?_eq {kind : TriviaKind} {taken rest : List Char} (h : Skips kind taken rest) :
    trivia? (taken ++ rest) = some ⟨.ok kind, taken, rest⟩ := by
  cases h with
  | @blanks c cs _ hc h hrest =>
    have hcut := whileIn_append (List.forall_mem_cons.2 ⟨hc, h⟩) hrest
    rw [List.cons_append] at hcut ⊢
    rw [trivia?, if_pos hc, hcut]
    rfl
  | @line cs _ h hrest =>
    have hcut := @whileIn_append (· != '\n') ('-' :: '-' :: cs) rest (by simpa using h) hrest
    simp only [List.cons_append] at hcut ⊢
    rw [trivia?, if_neg (by decide), if_pos (by rfl), hcut]
    rfl
  | @block cs _ h =>
    have hcut : through '*' '/' (cs ++ rest) = some (cs, rest) := h.through_eq
    simp only [List.cons_append]
    rw [trivia?, if_neg (by decide), if_neg (by simp), if_pos (by rfl), List.drop_one, List.tail_cons, hcut]
    rfl

theorem trivia?_of_append {taken tail rest : List Char} {kind : TriviaKind}
    (h : trivia? (taken ++ (tail ++ rest)) = some ⟨.ok kind, taken, tail ++ rest⟩) :
    trivia? (taken ++ tail) = some ⟨.ok kind, taken, tail⟩ := by
  apply Skips.trivia?_eq
  cases skips_of_trivia? h with
  | blanks hc hall hrest => exact .blanks hc hall (startsWith_of_append hrest)
  | line hall hrest => exact .line hall (startsWith_of_append hrest)
  | block hreaches => exact .block hreaches

end PlsqlLint.Lexeme
