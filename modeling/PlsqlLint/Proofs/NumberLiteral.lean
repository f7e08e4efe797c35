import PlsqlLint.Proofs.StringLiteral

/-!
# Number literals

The texts that are numbers form a regular language (`numberGrammar`).  The numbers of a text are of that language, and
every text of the language is read as one number (`tokenize_number`).

How far a number reaches depends on the one or two characters behind each of its parts.  In front of two dots it ends
with its digits, because the dots are those of a range (`Lexer.next_of_range`).
-/

namespace PlsqlLint

/-! ### The grammar of number literals -/

namespace NumberGrammar

open RegularExpression

/-- One of the characters. -/
def anyOf (cs : List Char) : RegularExpression Char := (cs.map char).sum

/-- The expression or nothing. -/
def optional (p : RegularExpression Char) : RegularExpression Char := 1 + p

def digit : RegularExpression Char := anyOf ['0', '1', '2', '3', '4', '5', '6', '7', '8', '9']

/-- One digit or more. -/
def digits : RegularExpression Char := digit * star digit

/-- Digits with a fraction that may be missing or empty, or a dot with digits behind it. -/
def mantissa : RegularExpression Char := digits * optional (char '.' * star digit) + char '.' * digits

def exponent : RegularExpression Char := anyOf ['e', 'E'] * (optional (anyOf ['+', '-']) * digits)

/-- The mark of a binary floating-point number. -/
def mark : RegularExpression Char := anyOf ['f', 'F', 'd', 'D']

end NumberGrammar

/-- The number literals. -/
def numberGrammar : RegularExpression Char :=
  open NumberGrammar in mantissa * (optional exponent * optional mark)

/-! ### The parts of a number -/

namespace NumberGrammar

open RegularExpression Lexeme

variable {w : List Char} {p q : RegularExpression Char}

private theorem mem_mul_iff : w ∈ (p * q).matches' ↔ ∃ a b, a ∈ p.matches' ∧ b ∈ q.matches' ∧ w = a ++ b := by
  rw [matches'_mul, Language.mem_mul]
  constructor
  · rintro ⟨a, ha, b, hb, rfl⟩
    exact ⟨a, b, ha, hb, rfl⟩
  · rintro ⟨a, b, ha, hb, rfl⟩
    exact ⟨a, ha, b, hb, rfl⟩

private theorem mem_char_iff {c : Char} : w ∈ (char c).matches' ↔ w = [c] := Iff.rfl

private theorem mem_anyOf_iff {cs : List Char} : w ∈ (anyOf cs).matches' ↔ ∃ c ∈ cs, w = [c] := by
  induction cs with
  | nil =>
    constructor
    · intro h
      cases h
    · rintro ⟨c, hc, -⟩
      cases hc
  | cons c cs ih =>
    have hsum : anyOf (c :: cs) = char c + anyOf cs := by simp [anyOf]
    rw [hsum, matches'_add, Language.mem_add, ih, mem_char_iff, List.exists_mem_cons_iff]

private theorem mem_optional_iff : w ∈ (optional p).matches' ↔ w = [] ∨ w ∈ p.matches' := by
  rw [optional, matches'_add, Language.mem_add, matches'_epsilon, Language.mem_one]

private theorem mem_decimal_iff {d : Char} :
    d ∈ ['0', '1', '2', '3', '4', '5', '6', '7', '8', '9'] ↔ d.isDigit = true := by
  constructor
  · intro hd
    have hall : ['0', '1', '2', '3', '4', '5', '6', '7', '8', '9'].all Char.isDigit = true := by decide
    exact List.all_eq_true.1 hall d hd
  · intro hd
    simp only [Char.isDigit, Bool.and_eq_true, decide_eq_true_eq, ge_iff_le, UInt32.le_iff_toNat_le] at hd
    have h1 : 48 ≤ d.toNat := hd.1
    have h2 : d.toNat ≤ 57 := hd.2
    rw [← Char.ofNat_toNat d]
    generalize d.toNat = n at h1 h2
    interval_cases n <;> decide

private theorem mem_digit_iff : w ∈ digit.matches' ↔ ∃ d : Char, d.isDigit = true ∧ w = [d] := by
  rw [digit, mem_anyOf_iff]
  simp only [mem_decimal_iff]

private theorem mem_star_digit_iff : w ∈ (star digit).matches' ↔ ∀ d ∈ w, d.isDigit = true := by
  rw [matches'_star, Language.mem_kstar]
  constructor
  · rintro ⟨ds, rfl, hds⟩ d hd
    obtain ⟨piece, hpiece, hdp⟩ := List.mem_flatten.1 hd
    obtain ⟨e, he, rfl⟩ := mem_digit_iff.1 (hds piece hpiece)
    rwa [List.mem_singleton.1 hdp]
  · intro h
    refine ⟨w.map ([·]), (List.flatMap_singleton' w).symm, ?_⟩
    intro piece hpiece
    obtain ⟨d, hd, rfl⟩ := List.mem_map.1 hpiece
    exact mem_digit_iff.2 ⟨d, h d hd, rfl⟩

private theorem mem_digits_iff : w ∈ digits.matches' ↔ w ≠ [] ∧ ∀ d ∈ w, d.isDigit = true := by
  rw [digits, mem_mul_iff]
  constructor
  · rintro ⟨a, b, ha, hb, rfl⟩
    obtain ⟨d, hd, rfl⟩ := mem_digit_iff.1 ha
    refine ⟨by simp, ?_⟩
    rw [List.singleton_append, List.forall_mem_cons]
    exact ⟨hd, mem_star_digit_iff.1 hb⟩
  · rintro ⟨hne, h⟩
    obtain ⟨d, ds, rfl⟩ := List.exists_cons_of_ne_nil hne
    rw [List.forall_mem_cons] at h
    exact ⟨[d], ds, mem_digit_iff.2 ⟨d, h.1, rfl⟩, mem_star_digit_iff.2 h.2, rfl⟩

private theorem mem_fraction_iff : w ∈ (optional (char '.' * star digit)).matches' ↔ Numeral.IsFraction w := by
  rw [mem_optional_iff, mem_mul_iff, Numeral.IsFraction]
  refine or_congr Iff.rfl ?_
  constructor
  · rintro ⟨a, ds, ha, hds, rfl⟩
    rw [mem_char_iff.1 ha]
    exact ⟨ds, rfl, mem_star_digit_iff.1 hds⟩
  · rintro ⟨ds, rfl, hds⟩
    exact ⟨['.'], ds, rfl, mem_star_digit_iff.2 hds, rfl⟩

/-- There is a digit in the mantissa, before the dot or behind it. -/
private theorem mem_mantissa_iff : w ∈ mantissa.matches' ↔ ∃ whole fraction, w = whole ++ fraction ∧
    (∀ d ∈ whole, d.isDigit = true) ∧ Numeral.IsFraction fraction ∧
    (whole ≠ [] ∨ ∃ d ds, fraction = '.' :: d :: ds) := by
  rw [mantissa, matches'_add, Language.mem_add, mem_mul_iff, mem_mul_iff]
  constructor
  · rintro (⟨whole, fraction, hw, hf, rfl⟩ | ⟨dot, ds, hdot, hds, rfl⟩)
    · obtain ⟨hne, hdigits⟩ := mem_digits_iff.1 hw
      exact ⟨whole, fraction, rfl, hdigits, mem_fraction_iff.1 hf, .inl hne⟩
    · rw [mem_char_iff.1 hdot]
      obtain ⟨hne, hdigits⟩ := mem_digits_iff.1 hds
      obtain ⟨d, more, rfl⟩ := List.exists_cons_of_ne_nil hne
      exact ⟨[], '.' :: d :: more, rfl, by simp, .inr ⟨_, rfl, hdigits⟩, .inr ⟨d, more, rfl⟩⟩
  · rintro ⟨whole, fraction, rfl, hw, hf, hdigit⟩
    by_cases hne : whole = []
    · right
      subst hne
      obtain ⟨d, ds, rfl⟩ := hdigit.resolve_left (fun h => h rfl)
      rcases hf with hnil | ⟨es, hes, hdigits⟩
      · cases hnil
      · obtain ⟨-, rfl⟩ := List.cons.inj hes
        exact ⟨['.'], d :: ds, rfl, mem_digits_iff.2 ⟨by simp, hdigits⟩, rfl⟩
    · left
      exact ⟨whole, fraction, mem_digits_iff.2 ⟨hne, hw⟩, mem_fraction_iff.2 hf, rfl⟩

private theorem mem_exponent_iff : w ∈ (optional exponent).matches' ↔ Numeral.IsExponent w := by
  have hsign : ∀ s, s ∈ (optional (anyOf ['+', '-'])).matches' ↔ Numeral.IsSign s := by
    intro s
    rw [mem_optional_iff, mem_anyOf_iff]
    simp [Numeral.IsSign]
  rw [mem_optional_iff, exponent, mem_mul_iff, Numeral.IsExponent]
  refine or_congr Iff.rfl ?_
  constructor
  · rintro ⟨a, b, ha, hb, rfl⟩
    obtain ⟨e, he, rfl⟩ := mem_anyOf_iff.1 ha
    obtain ⟨s, ds, hs, hds, rfl⟩ := mem_mul_iff.1 hb
    obtain ⟨hne, hdigits⟩ := mem_digits_iff.1 hds
    exact ⟨e, s, ds, rfl, by simpa using he, (hsign s).1 hs, hne, hdigits⟩
  · rintro ⟨e, s, ds, rfl, he, hs, hne, hdigits⟩
    exact ⟨[e], s ++ ds, mem_anyOf_iff.2 ⟨e, by simpa using he, rfl⟩,
      mem_mul_iff.2 ⟨s, ds, (hsign s).2 hs, mem_digits_iff.2 ⟨hne, hdigits⟩, rfl⟩, rfl⟩

private theorem mem_mark_iff : w ∈ (optional mark).matches' ↔ Numeral.IsMark w := by
  rw [mem_optional_iff, mark, mem_anyOf_iff, Numeral.IsMark]
  refine or_congr Iff.rfl ?_
  constructor
  · rintro ⟨c, hc, rfl⟩
    exact ⟨c, rfl, by simpa [or_assoc] using hc⟩
  · rintro ⟨c, rfl, hc⟩
    exact ⟨c, by simpa [or_assoc] using hc, rfl⟩

end NumberGrammar

namespace Lexeme

open NumberGrammar

/-- The number literals are the texts of well-formed numerals. -/
theorem mem_numberGrammar_iff {cs : List Char} :
    cs ∈ numberGrammar.matches' ↔ ∃ n : Numeral, n.WellFormed ∧ cs = n.text := by
  rw [numberGrammar, mem_mul_iff]
  constructor
  · rintro ⟨a, b, ha, hb, rfl⟩
    obtain ⟨exponent, mark, he, hm, rfl⟩ := mem_mul_iff.1 hb
    obtain ⟨whole, fraction, rfl, hw, hf, hdigit⟩ := mem_mantissa_iff.1 ha
    refine ⟨⟨whole, fraction, exponent, mark⟩, ⟨hw, hf, mem_exponent_iff.1 he, mem_mark_iff.1 hm, hdigit⟩, ?_⟩
    simp [Numeral.text]
  · rintro ⟨n, h, rfl⟩
    refine ⟨n.whole ++ n.fraction, n.exponent ++ n.mark, ?_, ?_, by simp [Numeral.text]⟩
    · exact mem_mantissa_iff.2 ⟨_, _, rfl, h.whole, h.fraction, h.digit⟩
    · exact mem_mul_iff.2 ⟨_, _, mem_exponent_iff.2 h.exponent, mem_mark_iff.2 h.mark, rfl⟩

/-- Only numerals are spelled as numbers. -/
theorem exists_of_spells_number {cs : List Char} (h : Spells .number cs) :
    ∃ n : Numeral, n.WellFormed ∧ cs = n.text := by
  generalize hterminal : Terminal.number = terminal at h
  cases h with
  | number hn => exact ⟨_, hn, rfl⟩
  | string _ _ | quotedName _ | endOfInput => cases hterminal
  | word _ _ =>
    unfold wordTerminal at hterminal
    split at hterminal <;> cases hterminal
  | @symbol s hs =>
    have hsymbols : ∀ s ∈ Terminal.symbols, s.2 ≠ .number := by decide
    exact absurd hterminal.symm (hsymbols s hs)

/-- The spellings of numbers are the number literals. -/
theorem spells_number_iff {cs : List Char} : Spells .number cs ↔ cs ∈ numberGrammar.matches' := by
  rw [mem_numberGrammar_iff]
  constructor
  · exact exists_of_spells_number
  · rintro ⟨n, hn, rfl⟩
    exact .number hn

/-! ### Numbers in front of a range -/

/-- In front of two dots, a number ends with its digits. -/
private theorem number_of_range {ds : List Char} (hds : ∀ d ∈ ds, d.isDigit = true) (rest : List Char) :
    number (ds ++ '.' :: '.' :: rest) = (ds, '.' :: '.' :: rest) := by
  have hfraction : fraction ('.' :: '.' :: rest) = ([], '.' :: '.' :: rest) := rfl
  have hexponent : exponent ('.' :: '.' :: rest) = ([], '.' :: '.' :: rest) := rfl
  have hmark : floatMark ('.' :: '.' :: rest) = ([], '.' :: '.' :: rest) := rfl
  simp only [number, whileIn_append hds (rfl : startsWith Char.isDigit ('.' :: '.' :: rest) = false), Cut.andThen,
    hfraction, hexponent, hmark, List.append_nil]

private theorem token_of_digit {d : Char} (hd : d.isDigit = true) (cs : List Char) :
    token (d :: cs) = ofCut .number (number (d :: cs)) := by
  have hquote : d ≠ '\'' := by
    rintro rfl
    exact absurd hd (by decide)
  have hdouble : d ≠ '"' := by
    rintro rfl
    exact absurd hd (by decide)
  rw [token_cons (stringOpening?_eq_none_of_ne hquote (toLower_ne_of_isDigit hd) cs), if_neg (by simpa using hdouble),
    if_pos (by simp [hd])]

private theorem trivia?_of_digit {d : Char} (hd : d.isDigit = true) (cs : List Char) : trivia? (d :: cs) = none := by
  refine trivia?_cons_of_ne (isBlank_of_isDigit hd) ?_ ?_ cs
  · rintro rfl
    exact absurd hd (by decide)
  · rintro rfl
    exact absurd hd (by decide)

end Lexeme

namespace Lexer

variable {a b : Lexer}

/-- The first token of a text is the one that is read first. -/
theorem head?_tokens {t : Token} {ts : List Token} (hnext : a.next = (.ok t, b)) (h : a.tokens = .ok ts) :
    ts.head? = some t := by
  unfold tokens at h
  split at h
  · cases h
  · rename_i u c hu
    obtain ⟨rfl, -⟩ : u = t ∧ c = b := by simpa [hu] using hnext
    split at h
    · cases h
      rfl
    · split at h
      · cases h
        rfl
      · cases h

/-- A text of digits in front of two dots starts with the number of just these digits. -/
theorem next_of_range {ds rest : List Char} (ha : a.rest = ds ++ '.' :: '.' :: rest) (hne : ds ≠ [])
    (hds : ∀ d ∈ ds, d.isDigit = true) :
    a.next = (.ok ⟨.number, String.ofList ds, ⟨a.position, a.position.after ds⟩, []⟩,
      ⟨'.' :: '.' :: rest, a.position.after ds⟩) := by
  obtain ⟨d, more, rfl⟩ := List.exists_cons_of_ne_nil hne
  have hd := hds d List.mem_cons_self
  have htoken : Lexeme.token a.rest = ⟨.ok .number, d :: more, '.' :: '.' :: rest⟩ := by
    rw [ha, List.cons_append, Lexeme.token_of_digit hd, ← List.cons_append, Lexeme.number_of_range hds]
    rfl
  refine next_of_token (trivia_of_none ?_) htoken
  rw [ha]
  exact Lexeme.trivia?_of_digit hd _

end Lexer

/-- Number literals are read by exactly their grammar.  Every number of a text that can be read is a number literal;
every number literal is read as one number without trivia, followed by the end of the input; and a text that begins with
digits and two dots behind them starts with the number of just these digits. -/
theorem tokenize_number :
    (∀ (text : String) (ts : List Token), tokenize text = .ok ts →
      ∀ t ∈ ts, t.terminal = .number → t.literal.toList ∈ numberGrammar.matches') ∧
    (∀ s : String, s.toList ∈ numberGrammar.matches' →
      ∃ t e, tokenize s = .ok [t, e] ∧ t.terminal = .number ∧ t.literal = s ∧ t.trivia = [] ∧
        e.terminal = .endOfInput) ∧
    ∀ (text : String) (ds rest : List Char), text.toList = ds ++ '.' :: '.' :: rest → ds ≠ [] →
      (∀ d ∈ ds, d.isDigit = true) →
      ∃ t behind, (Lexer.ofText text).next = (.ok t, behind) ∧ t.terminal = .number ∧ t.literal = String.ofList ds ∧
        t.trivia = [] ∧ ∀ ts, tokenize text = .ok ts → ts.head? = some t := by
  refine ⟨?_, ?_, ?_⟩
  · intro text ts h t ht hnumber
    have hspells := Lexer.tokens_spells h t ht
    rw [hnumber] at hspells
    exact Lexeme.spells_number_iff.1 hspells
  · intro s hs
    exact (tokenize_single_iff (by decide)).2 (Lexeme.spells_number_iff.2 hs)
  · intro text ds rest htext hne hds
    have hnext := Lexer.next_of_range (a := .ofText text) htext hne hds
    exact ⟨_, _, hnext, rfl, rfl, rfl, fun _ h => Lexer.head?_tokens hnext h⟩

/-- An empty fraction in front of an exponent, a fraction alone in front of a letter that ends no number, and a
range. -/
theorem tokenize_number_parts :
    (∃ t e, tokenize "1.e+2D" = .ok [t, e] ∧ t.terminal = .number ∧ t.literal = "1.e+2D" ∧ t.trivia = [] ∧
      e.terminal = .endOfInput) ∧
    (tokenize "-.5dx" = .ok [⟨.minus, "-", ⟨⟨1, 0, 0⟩, ⟨1, 1, 1⟩⟩, []⟩, ⟨.number, ".5", ⟨⟨1, 1, 1⟩, ⟨1, 3, 3⟩⟩, []⟩,
        ⟨.identifier, "dx", ⟨⟨1, 3, 3⟩, ⟨1, 5, 5⟩⟩, []⟩, .endAt ⟨1, 5, 5⟩] ∧
      ".5".toList ∈ numberGrammar.matches') ∧
    ∃ t behind, (Lexer.ofText "07..'").next = (.ok t, behind) ∧ t.terminal = .number ∧ t.literal = "07" ∧
      t.trivia = [] ∧ ∀ ts, tokenize "07..'" = .ok ts → ts.head? = some t := by
  have hread : tokenize "-.5dx" = .ok [⟨.minus, "-", ⟨⟨1, 0, 0⟩, ⟨1, 1, 1⟩⟩, []⟩,
      ⟨.number, ".5", ⟨⟨1, 1, 1⟩, ⟨1, 3, 3⟩⟩, []⟩, ⟨.identifier, "dx", ⟨⟨1, 3, 3⟩, ⟨1, 5, 5⟩⟩, []⟩,
      .endAt ⟨1, 5, 5⟩] := by decide +kernel
  obtain ⟨hnumbers, hliterals, hranges⟩ := tokenize_number
  have hrange := hranges "07..'" ['0', '7'] ['\''] (by simp) (by simp) (by simp)
  rw [show String.ofList ['0', '7'] = "07" by decide] at hrange
  refine ⟨hliterals "1.e+2D" (by decide), ⟨hread, ?_⟩, hrange⟩
  exact hnumbers _ _ hread _ (List.mem_cons_of_mem _ List.mem_cons_self) rfl

end PlsqlLint
