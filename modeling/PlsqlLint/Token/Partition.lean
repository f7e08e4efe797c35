import PlsqlLint.Token.Lexeme

/-!
# A lexeme splits the text

What a lexeme has read and what it leaves are the text it was given (`Lexeme.token_append`,
`Lexeme.trivia?_append`).  A token other than the end of the input reads at least one character
(`Lexeme.token_rest_lt`), and so does every piece of trivia (`Lexeme.trivia?_rest_lt`): reading a text token by
token comes to an end.
-/

namespace PlsqlLint

namespace Cut

/-- The two parts of a cut, put together. -/
def whole (cut : Cut) : List Char := cut.1 ++ cut.2

@[simp] theorem whole_whileIn (p : Char → Bool) (cs : List Char) : (whileIn p cs).whole = cs :=
  List.takeWhile_append_dropWhile

@[simp] theorem whole_nothing (cs : List Char) : (nothing cs).whole = cs := rfl

@[simp] theorem whole_after (taken : List Char) (cut : Cut) : (after taken cut).whole = taken ++ cut.whole := by
  simp [after, whole]

private theorem whole_andThen (cut : Cut) {next : List Char → Cut} (h : ∀ cs, (next cs).whole = cs) :
    (cut.andThen next).whole = cut.whole := by
  simpa [andThen, whole] using h cut.2

end Cut

namespace Lexeme

open Cut

/-! ### The parts of a number -/

theorem whole_fraction (cs : List Char) : (fraction cs).whole = cs := by
  unfold fraction
  split
  · split <;> simp
  · simp

private theorem whole_sign (cs : List Char) : (sign cs).whole = cs := by
  unfold sign
  split
  · split <;> simp [whole, nothing]
  · simp

theorem whole_exponent (cs : List Char) : (exponent cs).whole = cs := by
  unfold exponent
  split
  · split
    · rw [whole_after, whole_andThen _ (whole_whileIn _), whole_sign]; rfl
    · simp
  · simp

theorem whole_floatMark (cs : List Char) : (floatMark cs).whole = cs := by
  unfold floatMark
  split
  · split <;> simp [whole, nothing]
  · simp

private theorem whole_number (cs : List Char) : (number cs).whole = cs := by
  rw [number, whole_andThen _ whole_floatMark, whole_andThen _ whole_exponent, whole_andThen _ whole_fraction,
    whole_whileIn]

/-! ### The ends of strings and comments -/

theorem whole_through {a b : Char} {cs : List Char} {cut : Cut} (h : through a b cs = some cut) :
    cut.whole = cs := by
  induction cs generalizing cut with
  | nil => simp [through] at h
  | cons c cs ih =>
    unfold through at h
    split at h
    · cases h; exact congrArg (c :: ·) (List.take_append_drop 1 cs)
    · obtain ⟨inner, hi, rfl⟩ := Option.map_eq_some_iff.1 h
      simp [ih hi]

private theorem whole_closeQuote {cs : List Char} {cut : Cut} (h : closeQuote cs = some cut) : cut.whole = cs := by
  fun_induction closeQuote cs generalizing cut with
  | case1 => cases h
  | case2 cs ih =>
    obtain ⟨inner, hi, rfl⟩ := Option.map_eq_some_iff.1 h
    simp [ih hi]
  | case3 cs => cases h; rfl
  | case4 c cs _ _ ih =>
    obtain ⟨inner, hi, rfl⟩ := Option.map_eq_some_iff.1 h
    simp [ih hi]

private theorem whole_closeDelimited {cs : List Char} {cut : Cut} (h : closeDelimited cs = some cut) :
    cut.whole = cs := by
  cases cs with
  | nil => cases h
  | cons c cs =>
    obtain ⟨inner, hi, rfl⟩ := Option.map_eq_some_iff.1 h
    simp [whole_through hi]

theorem whole_closeString {quoting : Quoting} {cs : List Char} {cut : Cut}
    (h : closeString quoting cs = some cut) : cut.whole = cs := by
  cases quoting
  · exact whole_closeQuote h
  · exact whole_closeDelimited h

theorem whole_stringOpening? {cs : List Char} {quoting : Quoting} {opening : Cut}
    (h : stringOpening? cs = some (quoting, opening)) : opening.whole = cs ∧ opening.1 ≠ [] := by
  unfold stringOpening? at h
  split at h
  · cases h; simp [whole]
  · split at h
    · cases h; simp [whole]
    · split at h
      · cases h; simp [whole]
      · cases h
  · split at h
    · cases h; simp [whole]
    · cases h
  · cases h

/-! ### Tokens and trivia -/

/-- All that a lexeme was given. -/
def whole {α : Type} (lexeme : Lexeme α) : List Char := lexeme.taken ++ lexeme.rest

@[simp] theorem whole_ofCut {α : Type} (found : α) (cut : Cut) : (ofCut found cut).whole = cut.whole := rfl

@[simp] theorem whole_faultToEnd {α : Type} (fault : LexFault) (cs : List Char) :
    (faultToEnd fault cs : Lexeme α).whole = cs := by simp [faultToEnd, whole]

private theorem whole_string {quoting : Quoting} {opening : Cut} :
    (string quoting opening).whole = opening.whole := by
  unfold string
  split
  · rename_i cut h
    rw [whole_ofCut, whole_after, whole_closeString h]; rfl
  · rw [whole_faultToEnd]; rfl

private theorem whole_quotedName (cs : List Char) : (quotedName cs).whole = '"' :: cs := by
  have h := List.takeWhile_append_dropWhile (p := fun c => c != '"' && c != '\n') (l := cs)
  unfold quotedName
  split
  · rename_i hd; rw [hd] at h; simpa using h
  · rename_i c rest hd
    rw [hd] at h
    split <;> simpa [whole, ofCut, Cut.whole] using h

private theorem whole_symbol (c : Char) (cs : List Char) : (symbol c cs).whole = c :: cs := by
  unfold symbol
  split
  · rw [whole_ofCut]; exact List.take_append_drop _ _
  · rfl

/-- A token and what it leaves are the text. -/
theorem token_append (cs : List Char) : (token cs).taken ++ (token cs).rest = cs := by
  show (token cs).whole = cs
  unfold token
  split
  · rename_i quoting opening h
    rw [whole_string, (whole_stringOpening? h).1]
  · split
    · rfl
    · split
      · rename_i hc; simp at hc; rw [whole_quotedName, hc]
      · split
        · rw [whole_ofCut, whole_number]
        · split
          · exact whole_whileIn _ _
          · exact whole_symbol _ _

/-- A piece of trivia and what it leaves are the text. -/
theorem trivia?_append {cs : List Char} {lexeme : Lexeme TriviaKind} (h : trivia? cs = some lexeme) :
    lexeme.taken ++ lexeme.rest = cs := by
  show lexeme.whole = cs
  cases cs with
  | nil => cases h
  | cons c cs =>
    rw [trivia?] at h
    split at h
    · cases h; rw [whole_ofCut, whole_whileIn]
    · split at h
      · cases h; rw [whole_ofCut, whole_whileIn]
      · split at h
        · rename_i hc
          have hcs : '/' :: '*' :: cs.drop 1 = c :: cs := by
            cases cs <;> simp_all [startsWith]
          split at h
          · rename_i cut ht
            cases h
            rw [whole_ofCut, whole_after, whole_through ht]; exact hcs
          · cases h; rw [whole_faultToEnd]
        · cases h

private theorem rest_lt_of_append {taken rest cs : List Char} (h : taken ++ rest = cs) (ht : taken ≠ []) :
    rest.length < cs.length := by
  have := List.length_pos_iff.2 ht
  rw [← h, List.length_append]; omega

private theorem takeWhile_ne_nil {p : Char → Bool} {c : Char} (cs : List Char) (h : p c = true) :
    (c :: cs).takeWhile p ≠ [] := by simp [h]

private theorem andThen_ne_nil {cut : Cut} (next : List Char → Cut) (h : cut.1 ≠ []) :
    (cut.andThen next).1 ≠ [] := by simp [andThen, h]

/-- A digit, or a dot before a digit, starts a number that is not empty. -/
private theorem number_ne_nil {c : Char} {cs : List Char}
    (h : (c.isDigit || (c == '.' && startsWith Char.isDigit cs)) = true) : (number (c :: cs)).1 ≠ [] := by
  unfold number
  apply andThen_ne_nil
  apply andThen_ne_nil
  by_cases hc : c.isDigit = true
  · exact andThen_ne_nil _ (takeWhile_ne_nil cs hc)
  · simp only [hc, Bool.false_or, Bool.and_eq_true, beq_iff_eq] at h
    obtain ⟨rfl, hd⟩ := h
    have hdot : startsWith (· == '.') cs = false := by
      cases cs with
      | nil => rfl
      | cons d cs =>
        simp only [startsWith, List.head?_cons, Option.any_some] at hd ⊢
        cases hdd : d == '.'
        · rfl
        · rw [beq_iff_eq.1 hdd] at hd; exact absurd hd (by decide)
    simp [andThen, whileIn, fraction, hdot, hc, after]

private theorem symbols_ne_nil : ∀ s ∈ Terminal.symbols, s.1 ≠ [] := by decide

/-- A token that is not the end of the input leaves less than the text. -/
theorem token_rest_lt {cs : List Char} {terminal : Terminal} (h : (token cs).found = .ok terminal)
    (hend : terminal ≠ .endOfInput) : (token cs).rest.length < cs.length := by
  refine rest_lt_of_append (token_append cs) ?_
  revert h
  unfold token
  split
  · rename_i quoting opening ho
    have hne := (whole_stringOpening? ho).2
    unfold string
    split
    · intro _; simp [ofCut, after, hne]
    · intro h; cases h
  · split
    · intro h; cases h; exact absurd rfl hend
    · split
      · intro _
        unfold quotedName
        split
        · simp [faultToEnd]
        · split <;> simp [ofCut]
      · split
        · rename_i hn; exact fun _ => number_ne_nil hn
        · split
          · rename_i ha
            exact fun _ => takeWhile_ne_nil _ (by simp [isWordChar, ha])
          · unfold symbol
            split
            · rename_i spelling _ hf
              have hm := List.mem_of_find?_eq_some hf
              have hne := symbols_ne_nil _ hm
              intro _
              cases spelling with
              | nil => exact absurd rfl hne
              | cons s ss => simp [ofCut]
            · intro h; cases h

/-- A piece of trivia leaves less than the text. -/
theorem trivia?_rest_lt {cs : List Char} {lexeme : Lexeme TriviaKind} (h : trivia? cs = some lexeme) :
    lexeme.rest.length < cs.length := by
  refine rest_lt_of_append (trivia?_append h) ?_
  cases cs with
  | nil => cases h
  | cons c cs =>
    rw [trivia?] at h
    split at h
    · cases h; rename_i hb; exact takeWhile_ne_nil cs hb
    · split at h
      · cases h
        rename_i hc
        simp only [Bool.and_eq_true, beq_iff_eq] at hc
        obtain ⟨rfl, _⟩ := hc
        have hd : ('-' != '\n') = true := by decide
        exact takeWhile_ne_nil (p := (· != '\n')) cs hd
      · split at h
        · split at h
          · cases h; simp [ofCut, after]
          · cases h; simp [faultToEnd]
        · cases h

end Lexeme

end PlsqlLint
