import Mathlib
import PlsqlLint.Token.Lexer

/-!
# How tokens are spelled

`Lexeme.Spells` gives the spellings of every terminal, whatever stands behind them.  A token is always cut off with one
of the spellings of its terminal (`Lexeme.token_spells`).  The other way round, in front of a blank or at the end of the
text a spelling is cut off as just that token (`Lexeme.Spells.token_eq`), because no token goes on with a blank.
-/

namespace PlsqlLint

/-! ### Classes of characters -/

namespace CodeRange

private theorem exists_of_covers {ranges : List CodeRange} {n : Nat} (h : covers ranges n = true) :
    ∃ r ∈ ranges, r.1 ≤ n ∧ n ≤ r.2 := by
  induction ranges with
  | nil => cases h
  | cons r ranges ih =>
    rw [covers] at h
    by_cases hlt : n < r.1
    · rw [if_pos hlt] at h
      cases h
    · rw [if_neg hlt, Bool.or_eq_true, decide_eq_true_eq] at h
      rcases h with hle | h
      · exact ⟨r, List.mem_cons_self, by omega, hle⟩
      · obtain ⟨s, hs, hn⟩ := ih h
        exact ⟨s, List.mem_cons_of_mem _ hs, hn⟩

/-- No range of the one list meets a range of the other. -/
def apart (ranges others : List CodeRange) : Bool :=
  ranges.all fun r => others.all fun s => decide (r.2 < s.1) || decide (s.2 < r.1)

private theorem not_covers_of_apart {ranges others : List CodeRange} (h : apart ranges others = true) {n : Nat}
    (hn : covers ranges n = true) : covers others n = false := by
  by_contra hother
  obtain ⟨r, hr, hr1, hr2⟩ := exists_of_covers hn
  obtain ⟨s, hs, hs1, hs2⟩ := exists_of_covers (Bool.eq_true_of_not_eq_false hother)
  simp only [apart, List.all_eq_true, Bool.or_eq_true, decide_eq_true_eq] at h
  have := h r hr s hs
  omega

private theorem blank_alphabetic : apart blankRanges alphabeticRanges = true := by decide +kernel

private theorem blank_numeric : apart blankRanges numericRanges = true := by decide +kernel

/-- The ten digits of numbers. -/
def digitRange : CodeRange := (0x30, 0x39)

private theorem digit_blank : apart [digitRange] blankRanges = true := by decide

private theorem digit_alphabetic : apart [digitRange] alphabeticRanges = true := by decide +kernel

private theorem covers_of_isDigit {c : Char} (h : c.isDigit = true) : covers [digitRange] c.toNat = true := by
  simp only [Char.isDigit, Bool.and_eq_true, decide_eq_true_eq, ge_iff_le, UInt32.le_iff_toNat_le] at h
  have h1 : 48 ≤ c.toNat := h.1
  have h2 : c.toNat ≤ 57 := h.2
  have hlt : ¬ c.toNat < 0x30 := by omega
  simp [covers, digitRange, hlt, h2]

end CodeRange

theorem isBlank_of_isDigit {c : Char} (h : c.isDigit = true) : isBlank c = false :=
  CodeRange.not_covers_of_apart CodeRange.digit_blank (CodeRange.covers_of_isDigit h)

private theorem isAlphabetic_of_isDigit {c : Char} (h : c.isDigit = true) : isAlphabetic c = false :=
  CodeRange.not_covers_of_apart CodeRange.digit_alphabetic (CodeRange.covers_of_isDigit h)

private theorem isAlphabetic_of_isBlank {c : Char} (h : isBlank c = true) : isAlphabetic c = false :=
  CodeRange.not_covers_of_apart CodeRange.blank_alphabetic h

private theorem ne_of_isBlank {c : Char} (h : isBlank c = true) {d : Char} (hd : isBlank d = false) :
    (c == d) = false := by
  rw [beq_eq_false_iff_ne]
  rintro rfl
  rw [hd] at h
  cases h

namespace Lexeme

/-- No word goes on with a blank. -/
private theorem isWordChar_of_isBlank {c : Char} (h : isBlank c = true) : isWordChar c = false := by
  have ha := isAlphabetic_of_isBlank h
  have hn : isNumeric c = false := CodeRange.not_covers_of_apart CodeRange.blank_numeric h
  have hline := ne_of_isBlank h (d := '_') (by decide)
  have hdollar := ne_of_isBlank h (d := '$') (by decide)
  have hhash := ne_of_isBlank h (d := '#') (by decide)
  simp only [isWordChar, ha, hn, hline, hdollar, hhash, Bool.or_self]

/-! ### What a text starts with -/

private theorem startsWith_append {p : Char → Bool} {cs ds : List Char} (hc : startsWith p cs = false)
    (hd : startsWith p ds = false) : startsWith p (cs ++ ds) = false := by
  cases cs with
  | nil => exact hd
  | cons c cs => exact hc

private theorem startsWith_of_forall {p : Char → Bool} {cs : List Char} (h : ∀ c ∈ cs, p c = false) :
    startsWith p cs = false := by
  cases cs with
  | nil => rfl
  | cons c cs => exact h c List.mem_cons_self

/-- The text is at its end or goes on with a blank. -/
def Loose (cs : List Char) : Prop := ∀ c ∈ cs.head?, isBlank c = true

theorem loose_nil : Loose [] := by simp [Loose]

private theorem Loose.startsWith {cs : List Char} (h : Loose cs) {p : Char → Bool}
    (hp : ∀ c, isBlank c = true → p c = false) :
    startsWith p cs = false := by
  cases cs with
  | nil => rfl
  | cons c cs => exact hp c (h c rfl)

/-- A text that goes on with a blank does not start with a given character, unless that is a blank. -/
private theorem Loose.startsWith_eq {cs : List Char} (h : Loose cs) {d : Char} (hd : isBlank d = false) :
    Lexeme.startsWith (· == d) cs = false :=
  h.startsWith fun _ hc => ne_of_isBlank hc hd

private theorem Loose.startsWith_digit {cs : List Char} (h : Loose cs) : Lexeme.startsWith Char.isDigit cs = false := by
  apply h.startsWith
  intro c hc
  by_contra hdigit
  rw [isBlank_of_isDigit (Bool.eq_true_of_not_eq_false hdigit)] at hc
  cases hc

private theorem Loose.startsWith_word {cs : List Char} (h : Loose cs) : Lexeme.startsWith isWordChar cs = false :=
  h.startsWith fun _ => isWordChar_of_isBlank

/-- All leading characters of a class are cut off, and no more. -/
theorem whileIn_append {p : Char → Bool} {cs ds : List Char} (hc : ∀ c ∈ cs, p c = true)
    (hd : startsWith p ds = false) : Cut.whileIn p (cs ++ ds) = (cs, ds) := by
  induction cs with
  | nil =>
    cases ds with
    | nil => rfl
    | cons d ds =>
      have hp : p d = false := hd
      simp [Cut.whileIn, hp]
  | cons c cs ih =>
    have hp := hc c List.mem_cons_self
    have hrest := ih (fun d hd => hc d (List.mem_cons_of_mem _ hd))
    simp only [Cut.whileIn, Prod.mk.injEq] at hrest
    simp [Cut.whileIn, hp, hrest.1, hrest.2]

theorem forall_whileIn (p : Char → Bool) (cs : List Char) : ∀ c ∈ (Cut.whileIn p cs).1, p c = true := by
  intro c hc
  exact List.mem_takeWhile_imp hc

/-! ### Numbers -/

/-- The parts of a number: digits, a fraction, an exponent and a floating-point mark.  Each of them may be missing, but
there is a digit in front of the exponent. -/
structure Numeral where
  whole : List Char
  fraction : List Char
  exponent : List Char
  mark : List Char

namespace Numeral

def text (n : Numeral) : List Char := n.whole ++ (n.fraction ++ (n.exponent ++ n.mark))

def IsFraction (cs : List Char) : Prop := cs = [] ∨ ∃ ds, cs = '.' :: ds ∧ ∀ d ∈ ds, d.isDigit = true

def IsSign (cs : List Char) : Prop := cs = [] ∨ cs = ['+'] ∨ cs = ['-']

def IsExponent (cs : List Char) : Prop :=
  cs = [] ∨ ∃ e sign ds, cs = e :: (sign ++ ds) ∧ (e == 'e' || e == 'E') = true ∧ IsSign sign ∧ ds ≠ [] ∧
    ∀ d ∈ ds, d.isDigit = true

def IsMark (cs : List Char) : Prop :=
  cs = [] ∨ ∃ c, cs = [c] ∧ (c == 'f' || c == 'F' || c == 'd' || c == 'D') = true

structure WellFormed (n : Numeral) : Prop where
  whole : ∀ d ∈ n.whole, d.isDigit = true
  fraction : IsFraction n.fraction
  exponent : IsExponent n.exponent
  mark : IsMark n.mark
  digit : n.whole ≠ [] ∨ ∃ d ds, n.fraction = '.' :: d :: ds

private theorem fraction_append {cs ds : List Char} (h : IsFraction cs) (hdigit : startsWith Char.isDigit ds = false)
    (hdot : startsWith (· == '.') ds = false) : Lexeme.fraction (cs ++ ds) = (cs, ds) := by
  rcases h with rfl | ⟨digits, rfl, hdigits⟩
  · cases ds with
    | nil => rfl
    | cons d ds =>
      have hd : d ≠ '.' := by simpa [startsWith] using hdot
      simp [Lexeme.fraction, hd, Cut.nothing]
  · have hnext : startsWith (· == '.') (digits ++ ds) = false := by
      refine startsWith_append (startsWith_of_forall ?_) hdot
      intro c hc
      rw [beq_eq_false_iff_ne]
      rintro rfl
      exact absurd (hdigits _ hc) (by decide)
    simp only [List.cons_append, Lexeme.fraction, hnext, Bool.false_eq_true, if_false]
    rw [whileIn_append hdigits hdigit]
    rfl

private theorem sign_append {cs ds : List Char} (h : IsSign cs) (hplus : startsWith (· == '+') ds = false)
    (hminus : startsWith (· == '-') ds = false) : Lexeme.sign (cs ++ ds) = (cs, ds) := by
  rcases h with rfl | rfl | rfl
  · cases ds with
    | nil => rfl
    | cons d ds =>
      have h1 : (d == '+') = false := hplus
      have h2 : (d == '-') = false := hminus
      simp [Lexeme.sign, h1, h2, Cut.nothing]
  · rfl
  · rfl

theorem exponent_append {cs ds : List Char} (h : IsExponent cs) (hdigit : startsWith Char.isDigit ds = false)
    (hmark : cs = [] → startsWith (fun c => c == 'e' || c == 'E') ds = false) :
    Lexeme.exponent (cs ++ ds) = (cs, ds) := by
  rcases h with rfl | ⟨e, sign, digits, rfl, he, hsign, hne, hdigits⟩
  · cases ds with
    | nil => rfl
    | cons d ds =>
      have hd : (d == 'e' || d == 'E') = false := hmark rfl
      simp [Lexeme.exponent, hd, Cut.nothing]
  · obtain ⟨d, more, rfl⟩ := List.exists_cons_of_ne_nil hne
    have hd := hdigits d List.mem_cons_self
    have hcut : Lexeme.sign (sign ++ (d :: more ++ ds)) = (sign, d :: more ++ ds) := by
      apply sign_append hsign
      · have : d ≠ '+' := by rintro rfl; exact absurd hd (by decide)
        simpa [startsWith] using this
      · have : d ≠ '-' := by rintro rfl; exact absurd hd (by decide)
        simpa [startsWith] using this
    have hstart : startsWith Char.isDigit (d :: more ++ ds) = true := hd
    rw [List.cons_append, List.append_assoc, Lexeme.exponent, hcut]
    simp only [he, hstart, Bool.and_self, if_true, Cut.andThen, Cut.after]
    rw [whileIn_append hdigits hdigit]
    rfl

theorem isWordChar_of_isMark {c : Char} (h : (c == 'f' || c == 'F' || c == 'd' || c == 'D') = true) :
    isWordChar c = true := by
  have hall : ['f', 'F', 'd', 'D'].all isWordChar = true := by decide
  have hc : c ∈ ['f', 'F', 'd', 'D'] := by simpa [or_assoc] using h
  exact List.all_eq_true.1 hall c hc

private theorem floatMark_append {cs ds : List Char} (h : IsMark cs) (hword : startsWith isWordChar ds = false) :
    Lexeme.floatMark (cs ++ ds) = (cs, ds) := by
  rcases h with rfl | ⟨c, rfl, hmark⟩
  · cases ds with
    | nil => rfl
    | cons d ds =>
      have hd : isWordChar d = false := hword
      have hmark : (d == 'f' || d == 'F' || d == 'd' || d == 'D') = false := by
        by_contra hmark
        rw [isWordChar_of_isMark (Bool.eq_true_of_not_eq_false hmark)] at hd
        cases hd
      simp [Lexeme.floatMark, hmark, Cut.nothing]
  · simp [Lexeme.floatMark, hmark, hword]

theorem IsMark.startsWith {cs : List Char} (h : IsMark cs) {p : Char → Bool}
    (hp : ['f', 'F', 'd', 'D'].all (!p ·) = true) : startsWith p cs = false := by
  rcases h with rfl | ⟨c, rfl, hmark⟩
  · rfl
  · have hc : c ∈ ['f', 'F', 'd', 'D'] := by simpa [or_assoc] using hmark
    have hpc : p c = false := by simpa using List.all_eq_true.1 hp c hc
    exact hpc

theorem IsExponent.startsWith {cs : List Char} (h : IsExponent cs) {p : Char → Bool}
    (hp : ['e', 'E'].all (!p ·) = true) : Lexeme.startsWith p cs = false := by
  rcases h with rfl | ⟨e, sign, digits, rfl, he, -⟩
  · rfl
  · have he' : e ∈ ['e', 'E'] := by simpa using he
    have hpe : p e = false := by simpa using List.all_eq_true.1 hp e he'
    exact hpe

private theorem IsFraction.startsWith {cs : List Char} (h : IsFraction cs) {p : Char → Bool} (hp : p '.' = false) :
    Lexeme.startsWith p cs = false := by
  rcases h with rfl | ⟨ds, rfl, -⟩
  · rfl
  · exact hp

/-- A number in front of a blank is cut off as a whole. -/
private theorem WellFormed.number_eq {n : Numeral} (h : n.WellFormed) {rest : List Char} (hrest : Loose rest) :
    number (n.text ++ rest) = (n.text, rest) := by
  obtain ⟨whole, fraction, exponent, mark⟩ := n
  obtain ⟨hw, hf, he, hm, -⟩ := h
  dsimp only at hw hf he hm
  -- What each part is followed by does not continue it.
  have hrest4 : startsWith isWordChar rest = false := hrest.startsWith_word
  have hdigit3 : startsWith Char.isDigit (mark ++ rest) = false :=
    startsWith_append (hm.startsWith (by decide)) hrest.startsWith_digit
  have hmark3 : startsWith (fun c => c == 'e' || c == 'E') (mark ++ rest) = false := by
    apply startsWith_append (hm.startsWith (by decide))
    have he := hrest.startsWith_eq (d := 'e') (by decide)
    have hE := hrest.startsWith_eq (d := 'E') (by decide)
    cases rest with
    | nil => rfl
    | cons c rest =>
      have h1 : (c == 'e') = false := he
      have h2 : (c == 'E') = false := hE
      simp [startsWith, h1, h2]
  have hdigit2 : startsWith Char.isDigit (exponent ++ (mark ++ rest)) = false :=
    startsWith_append (he.startsWith (by decide)) hdigit3
  have hdot2 : startsWith (· == '.') (exponent ++ (mark ++ rest)) = false :=
    startsWith_append (he.startsWith (by decide))
      (startsWith_append (hm.startsWith (by decide)) (hrest.startsWith_eq (by decide)))
  have hdigit1 : startsWith Char.isDigit (fraction ++ (exponent ++ (mark ++ rest))) = false :=
    startsWith_append (hf.startsWith (by decide)) hdigit2
  simp only [text, List.append_assoc]
  rw [number, whileIn_append hw hdigit1]
  simp only [Cut.andThen]
  rw [fraction_append hf hdigit2 hdot2]
  dsimp only
  rw [exponent_append he hdigit3 fun _ => hmark3]
  dsimp only
  rw [floatMark_append hm hrest4]
  simp

/-! The parts that are cut off are well formed. -/

private theorem isFraction_fraction (cs : List Char) : IsFraction (Lexeme.fraction cs).1 := by
  unfold Lexeme.fraction
  split
  · rename_i ds
    split
    · exact .inl rfl
    · exact .inr ⟨_, rfl, forall_whileIn Char.isDigit ds⟩
  · exact .inl rfl

private theorem isSign_sign (cs : List Char) : IsSign (Lexeme.sign cs).1 := by
  unfold Lexeme.sign
  split
  · rename_i c cs
    split
    · rename_i hc
      rcases Bool.or_eq_true_iff.1 hc with hc | hc
      · exact .inr (.inl (by rw [beq_iff_eq.1 hc]))
      · exact .inr (.inr (by rw [beq_iff_eq.1 hc]))
    · exact .inl rfl
  · exact .inl rfl

theorem isExponent_exponent (cs : List Char) : IsExponent (Lexeme.exponent cs).1 := by
  unfold Lexeme.exponent
  split
  · rename_i e cs
    split
    · rename_i he
      rw [Bool.and_eq_true] at he
      refine .inr ⟨e, (Lexeme.sign cs).1, _, rfl, he.1, isSign_sign cs, ?_, forall_whileIn Char.isDigit _⟩
      cases hrest : (Lexeme.sign cs).2 with
      | nil =>
        rw [hrest] at he
        exact absurd he.2 (by simp [startsWith])
      | cons d ds =>
        have hd : d.isDigit = true := by
          rw [hrest] at he
          exact he.2
        simp [Cut.whileIn, hd]
    · exact .inl rfl
  · exact .inl rfl

theorem isMark_floatMark (cs : List Char) : IsMark (Lexeme.floatMark cs).1 := by
  unfold Lexeme.floatMark
  split
  · rename_i c cs
    split
    · rename_i hc
      exact .inr ⟨c, rfl, (Bool.and_eq_true_iff.1 hc).1⟩
    · exact .inl rfl
  · exact .inl rfl

/-- The parts of the number at the beginning of a text. -/
def ofText (cs : List Char) : Numeral :=
  let whole := Cut.whileIn Char.isDigit cs
  let fraction := Lexeme.fraction whole.2
  let exponent := Lexeme.exponent fraction.2
  ⟨whole.1, fraction.1, exponent.1, (floatMark exponent.2).1⟩

theorem text_ofText (cs : List Char) : (ofText cs).text = (number cs).1 := by
  simp [ofText, text, number, Cut.andThen]

/-- A text that starts with a digit, or with a dot in front of one, starts with a number. -/
theorem wellFormed_ofText {c : Char} {cs : List Char}
    (h : (c.isDigit || (c == '.' && startsWith Char.isDigit cs)) = true) : (ofText (c :: cs)).WellFormed := by
  refine ⟨forall_whileIn Char.isDigit (c :: cs), isFraction_fraction _, isExponent_exponent _, isMark_floatMark _, ?_⟩
  by_cases hc : c.isDigit = true
  · left
    simp [ofText, Cut.whileIn, hc]
  · right
    simp only [hc, Bool.false_or, Bool.and_eq_true, beq_iff_eq] at h
    obtain ⟨rfl, hd⟩ := h
    cases cs with
    | nil => exact absurd hd (by simp [startsWith])
    | cons d cs =>
      have hd' : d.isDigit = true := hd
      have hdot : (d == '.') = false := by
        rw [beq_eq_false_iff_ne]
        rintro rfl
        exact absurd hd' (by decide)
      exact ⟨d, cs.takeWhile Char.isDigit, by
        simp [ofText, Cut.whileIn, hc, Lexeme.fraction, startsWith, hdot, Cut.after, hd']⟩

end Numeral

/-! ### Strings -/

/-- What closes a plain string: characters and doubled quotes, then a quote. -/
inductive ClosesPlain : List Char → Prop
  | quote : ClosesPlain ['\'']
  | doubled {cs} (h : ClosesPlain cs) : ClosesPlain ('\'' :: '\'' :: cs)
  | other {c cs} (hc : c ≠ '\'') (h : ClosesPlain cs) : ClosesPlain (c :: cs)

/-- A text that ends with its first `a` that is directly followed by `b`. -/
inductive Reaches (a b : Char) : List Char → Prop
  | found : Reaches a b [a, b]
  | other {c cs} (hc : (c == a && startsWith (· == b) cs) = false) (h : Reaches a b cs) : Reaches a b (c :: cs)

/-- What closes a string whose opening has been read. -/
def Closes : Quoting → List Char → Prop
  | .plain, cs => ClosesPlain cs
  | .delimited, cs => ∃ c ds, cs = c :: ds ∧ Reaches (closingDelimiter c) '\'' ds

/-- The opening of a string, with its marks. -/
inductive Opens : Quoting → List Char → Prop
  | bare : Opens .plain ['\'']
  | national {c} (hc : c = 'n' ∨ c = 'N') : Opens .plain [c, '\'']
  | delimited {c} (hc : c = 'q' ∨ c = 'Q') : Opens .delimited [c, '\'']
  | nationalDelimited {c d} (hc : c = 'n' ∨ c = 'N') (hd : d = 'q' ∨ d = 'Q') : Opens .delimited [c, d, '\'']

theorem ClosesPlain.closeQuote_eq {cs rest : List Char} (h : ClosesPlain cs)
    (hrest : startsWith (· == '\'') rest = false) : closeQuote (cs ++ rest) = some (cs, rest) := by
  induction h with
  | quote =>
    cases rest with
    | nil => rfl
    | cons c rest =>
      have hc : c ≠ '\'' := by simpa [startsWith] using hrest
      simp [closeQuote, hc]
  | doubled h ih => simp [closeQuote, ih, Cut.after]
  | @other c cs hc h ih => simp [closeQuote, hc, ih, Cut.after]

private theorem Reaches.ne_nil {a b : Char} {cs : List Char} (h : Reaches a b cs) : cs ≠ [] := by
  cases h <;> simp

theorem Reaches.through_eq {a b : Char} {cs rest : List Char} (h : Reaches a b cs) :
    through a b (cs ++ rest) = some (cs, rest) := by
  induction h with
  | found => simp [through, startsWith]
  | @other c cs hc h ih =>
    -- The character behind `c` is still one of `cs`.
    have hnext : startsWith (· == b) (cs ++ rest) = startsWith (· == b) cs := by
      cases cs with
      | nil => exact absurd rfl h.ne_nil
      | cons d cs => rfl
    rw [List.cons_append, through, hnext, hc, ih]
    rfl

private theorem Closes.closeString_eq {quoting : Quoting} {cs rest : List Char} (h : Closes quoting cs)
    (hrest : startsWith (· == '\'') rest = false) : closeString quoting (cs ++ rest) = some (cs, rest) := by
  cases quoting with
  | plain => exact ClosesPlain.closeQuote_eq h hrest
  | delimited =>
    obtain ⟨c, ds, rfl, hds⟩ := h
    simp [closeString, closeDelimited, hds.through_eq, Cut.after]

theorem closesPlain_of_closeQuote {cs : List Char} {cut : Cut} (h : closeQuote cs = some cut) : ClosesPlain cut.1 := by
  fun_induction closeQuote cs generalizing cut with
  | case1 => cases h
  | case2 cs ih =>
    obtain ⟨inner, hi, rfl⟩ := Option.map_eq_some_iff.1 h
    exact .doubled (ih hi)
  | case3 cs => cases h; exact .quote
  | case4 c cs _ hc ih =>
    obtain ⟨inner, hi, rfl⟩ := Option.map_eq_some_iff.1 h
    exact .other hc (ih hi)

theorem reaches_of_through {a b : Char} {cs : List Char} {cut : Cut} (h : through a b cs = some cut) :
    Reaches a b cut.1 := by
  induction cs generalizing cut with
  | nil => cases h
  | cons c cs ih =>
    rw [through] at h
    split at h
    · rename_i hc
      cases h
      rw [Bool.and_eq_true, beq_iff_eq] at hc
      obtain ⟨rfl, hb⟩ := hc
      cases cs with
      | nil => exact absurd hb (by simp [startsWith])
      | cons d cs =>
        obtain rfl : d = b := by simpa [startsWith] using hb
        exact .found
    · rename_i hc
      obtain ⟨inner, hi, rfl⟩ := Option.map_eq_some_iff.1 h
      have hwhole : inner.1 ++ inner.2 = cs := whole_through hi
      have hreach := ih hi
      refine .other ?_ hreach
      have hnext : startsWith (· == b) inner.1 = startsWith (· == b) cs := by
        rw [← hwhole]
        cases hcs : inner.1 with
        | nil => exact absurd hcs hreach.ne_nil
        | cons d ds => rfl
      change (c == a && startsWith (· == b) inner.1) = false
      rw [hnext]
      simpa using hc

theorem closes_of_closeString {quoting : Quoting} {cs : List Char} {cut : Cut}
    (h : closeString quoting cs = some cut) : Closes quoting cut.1 := by
  cases quoting with
  | plain => exact closesPlain_of_closeQuote h
  | delimited =>
    cases cs with
    | nil => cases h
    | cons c cs =>
      obtain ⟨inner, hi, rfl⟩ := Option.map_eq_some_iff.1 h
      exact ⟨c, inner.1, rfl, reaches_of_through hi⟩

private theorem eq_or_eq_of_toLower {c d : Char} (h : c.toLower = d) : c = d ∨ c = d.toUpper := by
  by_cases hc : c.isUpper = true
  · right
    rw [← h, Char.toUpper_toLower_eq_toUpper, Char.toUpper_eq_of_not_isLower (Char.not_isLower_of_isUpper hc)]
  · left
    rw [← h, Char.toLower_eq_of_not_isUpper hc]

theorem Opens.stringOpening?_eq {quoting : Quoting} {cs : List Char} (h : Opens quoting cs) (rest : List Char) :
    stringOpening? (cs ++ rest) = some (quoting, cs, rest) := by
  cases h with
  | bare => rfl
  | national hc =>
    rcases hc with rfl | rfl <;> rfl
  | delimited hc =>
    rcases hc with rfl | rfl <;> rfl
  | nationalDelimited hc hd =>
    rcases hc with rfl | rfl <;> rcases hd with rfl | rfl <;> rfl

theorem opens_of_stringOpening? {cs : List Char} {quoting : Quoting} {opening : Cut}
    (h : stringOpening? cs = some (quoting, opening)) : Opens quoting opening.1 := by
  unfold stringOpening? at h
  split at h
  · cases h
    exact .bare
  · split at h
    · rename_i hn
      cases h
      exact .national (eq_or_eq_of_toLower (beq_iff_eq.1 hn))
    · split at h
      · rename_i hq
        cases h
        exact .delimited (eq_or_eq_of_toLower (beq_iff_eq.1 hq))
      · cases h
  · split at h
    · rename_i hnq
      rw [Bool.and_eq_true, beq_iff_eq, beq_iff_eq] at hnq
      cases h
      exact .nationalDelimited (eq_or_eq_of_toLower hnq.1) (eq_or_eq_of_toLower hnq.2)
    · cases h
  · cases h

/-- A string opens with a quote, or with marks in front of one. -/
private theorem stringOpening?_eq_none {c : Char} {cs : List Char} (hc : c ≠ '\'')
    (hcs : startsWith (· == '\'') cs = false)
    (hds : ∀ d ds, cs = d :: ds → d.toLower = 'q' → startsWith (· == '\'') ds = false) :
    stringOpening? (c :: cs) = none := by
  unfold stringOpening?
  split
  · rename_i heq
    cases heq
    exact absurd rfl hc
  · rename_i heq
    cases heq
    exact absurd hcs (by simp [startsWith])
  · rename_i heq
    cases heq
    split
    · rename_i hnq
      rw [Bool.and_eq_true, beq_iff_eq, beq_iff_eq] at hnq
      exact absurd (hds _ _ rfl hnq.2) (by simp [startsWith])
    · rfl
  · rfl

theorem stringOpening?_eq_none_of_ne {c : Char} (hc : c ≠ '\'') (hmark : c.toLower ≠ 'n' ∧ c.toLower ≠ 'q')
    (cs : List Char) : stringOpening? (c :: cs) = none := by
  have hn : (c.toLower == 'n') = false := beq_eq_false_iff_ne.2 hmark.1
  have hq : (c.toLower == 'q') = false := beq_eq_false_iff_ne.2 hmark.2
  unfold stringOpening?
  split
  · rename_i heq
    cases heq
    exact absurd rfl hc
  · rename_i heq
    cases heq
    simp [hn, hq]
  · rename_i heq
    cases heq
    simp [hn]
  · rfl

/-! ### Quoted names, words and symbols -/

/-- The characters of a quoted name. -/
def isQuotable (c : Char) : Bool := c != '"' && c != '\n'

theorem quotedName_eq {body : List Char} (h : ∀ c ∈ body, isQuotable c = true) (rest : List Char) :
    quotedName (body ++ '"' :: rest) = ⟨.ok .quotedIdentifier, '"' :: body ++ ['"'], rest⟩ := by
  have hstop : startsWith isQuotable ('"' :: rest) = false := rfl
  have hcut := whileIn_append h hstop
  simp only [Cut.whileIn, Prod.mk.injEq] at hcut
  unfold isQuotable at hcut
  simp only [quotedName, hcut.1, hcut.2, beq_self_eq_true, if_true, ofCut]

private theorem word_eq {cs rest : List Char} (h : ∀ c ∈ cs, isWordChar c = true) (hrest : Loose rest) :
    word (cs ++ rest) = ⟨.ok (wordTerminal cs), cs, rest⟩ := by
  simp only [word, whileIn_append h hrest.startsWith_word, ofCut]

private theorem isPrefixOf_append {spelling cs rest : List Char} (h : ∀ c ∈ spelling, isBlank c = false)
    (hrest : Loose rest) :
    spelling.isPrefixOf (cs ++ rest) = spelling.isPrefixOf cs := by
  induction spelling generalizing cs with
  | nil => simp
  | cons a spelling ih =>
    have ha := h a List.mem_cons_self
    cases cs with
    | nil =>
      cases rest with
      | nil => rfl
      | cons b rest =>
        have hne : (b == a) = false := ne_of_isBlank (hrest b rfl) ha
        have hne' : (a == b) = false := by rwa [BEq.comm] at hne
        simp [List.isPrefixOf, hne']
    | cons c cs =>
      simp only [List.cons_append, List.isPrefixOf]
      rw [ih (fun c hc => h c (List.mem_cons_of_mem _ hc))]

/-- What the symbols have in common: none of them can be taken for another kind of token or for trivia. -/
structure Markish (c : Char) (cs : List Char) : Prop where
  quote : c ≠ '\''
  mark : c.toLower ≠ 'n' ∧ c.toLower ≠ 'q'
  doubleQuote : c ≠ '"'
  digit : c.isDigit = false
  alphabetic : isAlphabetic c = false
  blank : ∀ d ∈ c :: cs, isBlank d = false
  fraction : startsWith Char.isDigit cs = false
  lineComment : startsWith (· == '-') cs = false
  blockComment : c = '/' → startsWith (· == '*') cs = false

/-- The check that a spelling has all that in common with the symbols. -/
def isMarkish : List Char → Bool
  | [] => false
  | c :: cs =>
    (c != '\'' && (c.toLower != 'n' && c.toLower != 'q') && c != '"' && !c.isDigit && !isAlphabetic c) &&
    (c :: cs).all (!isBlank ·) &&
    (!startsWith Char.isDigit cs && !startsWith (· == '-') cs && !(c == '/' && startsWith (· == '*') cs))

private theorem isMarkish_symbols : Terminal.symbols.all (isMarkish ·.1) = true := by decide

private theorem find?_symbols_self :
    Terminal.symbols.all (fun s => decide (Terminal.symbols.find? (·.1.isPrefixOf s.1) = some s)) = true := by decide

private theorem markish_of_mem {s : List Char × Terminal} (h : s ∈ Terminal.symbols) :
    ∃ c cs, s.1 = c :: cs ∧ Markish c cs := by
  have hm := List.all_eq_true.1 isMarkish_symbols s h
  cases hs : s.1 with
  | nil =>
    rw [hs] at hm
    cases hm
  | cons c cs =>
    rw [hs] at hm
    simp only [isMarkish, Bool.and_eq_true, bne_iff_ne, ne_eq, Bool.not_eq_true', List.all_eq_true,
      Bool.and_eq_false_iff, beq_eq_false_iff_ne] at hm
    obtain ⟨⟨⟨⟨⟨⟨hquote, hmark⟩, hdouble⟩, hdigit⟩, halpha⟩, hblank⟩, ⟨hfraction, hline⟩, hblock⟩ := hm
    exact ⟨c, cs, rfl, hquote, hmark, hdouble, hdigit, halpha, hblank, hfraction, hline,
      fun hc => hblock.resolve_left (fun hne => hne hc)⟩

private theorem find?_symbols {s : List Char × Terminal} (h : s ∈ Terminal.symbols) {rest : List Char}
    (hrest : Loose rest) :
    Terminal.symbols.find? (·.1.isPrefixOf (s.1 ++ rest)) = some s := by
  have hself := List.all_eq_true.1 find?_symbols_self s h
  rw [decide_eq_true_eq] at hself
  rw [← hself]
  -- Behind the spelling there is nothing that another symbol could go on with.
  apply List.find?_congr
  intro t ht
  obtain ⟨c, cs, hspelling, hm⟩ := markish_of_mem ht
  exact isPrefixOf_append (hspelling ▸ hm.blank) hrest

/-! ### All tokens -/

/-- The spellings of a terminal. -/
inductive Spells : Terminal → List Char → Prop
  | string {quoting opening body} (ho : Opens quoting opening) (hb : Closes quoting body) :
      Spells .string (opening ++ body)
  | quotedName {body} (h : ∀ c ∈ body, isQuotable c = true) : Spells .quotedIdentifier ('"' :: body ++ ['"'])
  | number {n : Numeral} (h : n.WellFormed) : Spells .number n.text
  | word {c cs} (hc : isAlphabetic c = true) (h : ∀ d ∈ cs, isWordChar d = true) :
      Spells (wordTerminal (c :: cs)) (c :: cs)
  | symbol {s} (h : s ∈ Terminal.symbols) : Spells s.2 s.1
  | endOfInput : Spells .endOfInput []

theorem token_of_opening {cs : List Char} {quoting : Quoting} {opening : Cut}
    (h : stringOpening? cs = some (quoting, opening)) : token cs = string quoting opening := by
  unfold token
  rw [h]

/-- The token at the beginning of a text that opens no string. -/
theorem token_cons {c : Char} {cs : List Char} (h : stringOpening? (c :: cs) = none) :
    token (c :: cs) =
      if c == '"' then quotedName cs
      else if c.isDigit || (c == '.' && startsWith Char.isDigit cs) then ofCut .number (number (c :: cs))
      else if isAlphabetic c then word (c :: cs)
      else symbol c cs := by
  rw [token, h]

section Spellings

variable {cs : List Char} {terminal : Terminal}

private theorem string_spells {quoting : Quoting} {opening : Cut} (ho : stringOpening? cs = some (quoting, opening))
    (h : (string quoting opening).found = .ok terminal) : Spells terminal (string quoting opening).taken := by
  unfold Lexeme.string at h ⊢
  split at h
  · rename_i cut hcut
    cases h
    exact .string (opens_of_stringOpening? ho) (closes_of_closeString hcut)
  · cases h

private theorem quotedName_spells (h : (quotedName cs).found = .ok terminal) :
    Spells terminal (quotedName cs).taken := by
  unfold quotedName at h ⊢
  split at h
  · cases h
  · rename_i c rest hd
    by_cases hc : (c == '"') = true
    · rw [if_pos hc] at h ⊢
      cases h
      rw [beq_iff_eq.1 hc]
      exact .quotedName (forall_whileIn isQuotable cs)
    · rw [if_neg hc] at h
      cases h

private theorem number_spells {c : Char} (hc : (c.isDigit || (c == '.' && startsWith Char.isDigit cs)) = true) :
    Spells .number (number (c :: cs)).1 := by
  have hspells := Spells.number (Numeral.wellFormed_ofText hc)
  rwa [Numeral.text_ofText] at hspells

private theorem word_spells {c : Char} (hc : isAlphabetic c = true) (h : (word (c :: cs)).found = .ok terminal) :
    Spells terminal (word (c :: cs)).taken := by
  have hword : isWordChar c = true := by simp [isWordChar, hc]
  have hall := forall_whileIn isWordChar (c :: cs)
  simp only [Lexeme.word, ofCut, Cut.whileIn, List.takeWhile_cons, hword, if_true, Except.ok.injEq] at h hall ⊢
  rw [← h]
  exact .word hc fun d hd => hall d (List.mem_cons_of_mem _ hd)

private theorem symbol_spells {c : Char} (h : (symbol c cs).found = .ok terminal) :
    Spells terminal (symbol c cs).taken := by
  unfold Lexeme.symbol at h ⊢
  split at h
  · rename_i spelling terminal' hf
    cases h
    have hstart := List.find?_some hf
    have htake : (c :: cs).take spelling.length = spelling :=
      (List.prefix_iff_eq_take.1 (List.isPrefixOf_iff_prefix.1 hstart)).symm
    dsimp only [ofCut]
    rw [htake]
    exact .symbol (List.mem_of_find?_eq_some hf)
  · cases h

/-- A token is cut off with one of the spellings of its terminal. -/
theorem token_spells (h : (token cs).found = .ok terminal) : Spells terminal (token cs).taken := by
  cases ho : stringOpening? cs with
  | some opened =>
    rw [token_of_opening ho] at h ⊢
    exact string_spells ho h
  | none =>
    cases cs with
    | nil =>
      cases h
      exact .endOfInput
    | cons c cs =>
      rw [token_cons ho] at h ⊢
      by_cases hquote : (c == '"') = true
      · rw [if_pos hquote] at h ⊢
        exact quotedName_spells h
      rw [if_neg hquote] at h ⊢
      by_cases hnumber : (c.isDigit || (c == '.' && startsWith Char.isDigit cs)) = true
      · rw [if_pos hnumber] at h ⊢
        cases h
        exact number_spells hnumber
      rw [if_neg hnumber] at h ⊢
      by_cases hc : isAlphabetic c = true
      · rw [if_pos hc] at h ⊢
        exact word_spells hc h
      rw [if_neg hc] at h ⊢
      exact symbol_spells h

end Spellings

theorem trivia?_cons {c : Char} {cs : List Char} (hblank : isBlank c = false)
    (hline : c = '-' → startsWith (· == '-') cs = false) (hblock : c = '/' → startsWith (· == '*') cs = false) :
    trivia? (c :: cs) = none := by
  have h1 : (c == '-' && startsWith (· == '-') cs) = false := by
    by_cases hc : c = '-'
    · rw [hline hc, Bool.and_false]
    · rw [beq_eq_false_iff_ne.2 hc, Bool.false_and]
  have h2 : (c == '/' && startsWith (· == '*') cs) = false := by
    by_cases hc : c = '/'
    · rw [hblock hc, Bool.and_false]
    · rw [beq_eq_false_iff_ne.2 hc, Bool.false_and]
  simp only [trivia?, hblank, h1, h2, Bool.false_eq_true, if_false]

theorem trivia?_cons_of_ne {c : Char} (hblank : isBlank c = false) (hline : c ≠ '-') (hblock : c ≠ '/')
    (cs : List Char) : trivia? (c :: cs) = none :=
  trivia?_cons hblank (fun hc => absurd hc hline) (fun hc => absurd hc hblock)

theorem toLower_ne_of_isDigit {c : Char} (h : c.isDigit = true) : c.toLower ≠ 'n' ∧ c.toLower ≠ 'q' := by
  constructor
  · intro hc
    rcases eq_or_eq_of_toLower hc with rfl | rfl <;> exact absurd h (by decide)
  · intro hc
    rcases eq_or_eq_of_toLower hc with rfl | rfl <;> exact absurd h (by decide)

/-- A number starts with a digit, or with a dot in front of one. -/
theorem Numeral.WellFormed.text_eq {n : Numeral} (h : n.WellFormed) :
    ∃ c cs, n.text = c :: cs ∧ (c.isDigit = true ∨ c = '.' ∧ startsWith Char.isDigit cs = true) := by
  obtain ⟨whole, fraction, exponent, mark⟩ := n
  obtain ⟨hw, hf, -, -, hdigit⟩ := h
  dsimp only at hw hf hdigit
  cases whole with
  | cons d ds => exact ⟨d, _, rfl, .inl (hw d List.mem_cons_self)⟩
  | nil =>
    rcases hdigit with hne | ⟨d, ds, rfl⟩
    · exact absurd rfl hne
    · refine ⟨'.', _, rfl, .inr ⟨rfl, ?_⟩⟩
      rcases hf with hnil | ⟨es, hes, hdigits⟩
      · cases hnil
      · cases hes
        exact hdigits d List.mem_cons_self

namespace Spells

variable {terminal : Terminal} {cs rest : List Char}

private theorem token_eq_number {n : Numeral} (h : n.WellFormed) (hrest : Loose rest) :
    token (n.text ++ rest) = ⟨.ok .number, n.text, rest⟩ := by
  have hnumber := h.number_eq hrest
  obtain ⟨c, cs, hcs, hc⟩ := h.text_eq
  rw [hcs, List.cons_append] at hnumber
  rw [hcs, List.cons_append]
  have hopen : stringOpening? (c :: (cs ++ rest)) = none := by
    rcases hc with hc | ⟨rfl, -⟩
    · refine stringOpening?_eq_none_of_ne ?_ (toLower_ne_of_isDigit hc) _
      rintro rfl
      exact absurd hc (by decide)
    · exact stringOpening?_eq_none_of_ne (by decide) (by decide) _
  have hquote : (c == '"') = false := by
    rw [beq_eq_false_iff_ne]
    rintro rfl
    rcases hc with hc | ⟨hc, -⟩ <;> exact absurd hc (by decide)
  have hstart : (c.isDigit || (c == '.' && startsWith Char.isDigit (cs ++ rest))) = true := by
    rcases hc with hc | ⟨rfl, hd⟩
    · rw [hc, Bool.true_or]
    · cases cs with
      | nil => cases hd
      | cons d cs =>
        have hd' : d.isDigit = true := hd
        simp [startsWith, hd']
  rw [token_cons hopen, hquote, hstart, hnumber]
  rfl

private theorem token_eq_word {c : Char} (hc : isAlphabetic c = true) (h : ∀ d ∈ cs, isWordChar d = true)
    (hrest : Loose rest) :
    token (c :: cs ++ rest) = ⟨.ok (wordTerminal (c :: cs)), c :: cs, rest⟩ := by
  have hne : ∀ {d : Char}, isAlphabetic d = false → c ≠ d := by
    rintro d hd rfl
    rw [hd] at hc
    cases hc
  have hdigit : c.isDigit = false := by
    by_contra hd
    rw [isAlphabetic_of_isDigit (Bool.eq_true_of_not_eq_false hd)] at hc
    cases hc
  have hquote : ∀ ds : List Char, (∀ d ∈ ds, isWordChar d = true) → startsWith (· == '\'') (ds ++ rest) = false := by
    intro ds hds
    refine startsWith_append (startsWith_of_forall ?_) (hrest.startsWith_eq (by decide))
    intro d hd
    rw [beq_eq_false_iff_ne]
    rintro rfl
    exact absurd (hds _ hd) (by decide)
  have hopen : stringOpening? (c :: (cs ++ rest)) = none := by
    refine stringOpening?_eq_none (hne (by decide)) (hquote cs h) ?_
    intro d ds hds hd
    cases cs with
    | nil =>
      -- The character behind the word is a blank, hence no mark of a string.
      have hblank : isBlank d = true := hrest d (by rw [List.nil_append] at hds; rw [hds]; rfl)
      rcases eq_or_eq_of_toLower hd with rfl | rfl <;> exact absurd hblank (by decide)
    | cons e cs =>
      obtain ⟨rfl, rfl⟩ := List.cons.inj hds
      exact hquote cs fun d hd => h d (List.mem_cons_of_mem _ hd)
  have hword : ∀ d ∈ c :: cs, isWordChar d = true := by
    rw [List.forall_mem_cons]
    exact ⟨by simp [isWordChar, hc], h⟩
  have hdouble : (c == '"') = false := beq_eq_false_iff_ne.2 (hne (by decide))
  have hdot : (c == '.') = false := beq_eq_false_iff_ne.2 (hne (by decide))
  have hcut := word_eq hword hrest
  rw [List.cons_append] at hcut ⊢
  rw [token_cons hopen, hcut]
  simp only [hdouble, hdigit, hdot, hc, Bool.false_and, Bool.or_self, Bool.false_eq_true, if_false, if_true]

private theorem token_eq_symbol {s : List Char × Terminal} (h : s ∈ Terminal.symbols) (hrest : Loose rest) :
    token (s.1 ++ rest) = ⟨.ok s.2, s.1, rest⟩ := by
  have hfind := find?_symbols h hrest
  obtain ⟨c, cs, hs, hm⟩ := markish_of_mem h
  rw [hs, List.cons_append] at hfind
  have hdouble : (c == '"') = false := beq_eq_false_iff_ne.2 hm.doubleQuote
  have hfraction : startsWith Char.isDigit (cs ++ rest) = false := startsWith_append hm.fraction hrest.startsWith_digit
  have hopen := stringOpening?_eq_none_of_ne hm.quote hm.mark (cs ++ rest)
  rw [hs, List.cons_append, token_cons hopen]
  simp only [hdouble, hm.digit, hfraction, hm.alphabetic, Bool.and_false, Bool.or_self, Bool.false_eq_true, if_false]
  simp [Lexeme.symbol, hfind, hs, ofCut]

/-- In front of a blank and at the end of the text, a spelling is cut off as its terminal. -/
theorem token_eq (h : Spells terminal cs) (hrest : Loose rest) (hend : terminal = .endOfInput → rest = []) :
    token (cs ++ rest) = ⟨.ok terminal, cs, rest⟩ := by
  cases h with
  | string ho hb =>
    rw [List.append_assoc, token_of_opening (ho.stringOpening?_eq _)]
    simp only [Lexeme.string, hb.closeString_eq (hrest.startsWith_eq (by decide)), ofCut, Cut.after]
  | @quotedName body h =>
    have hopen : stringOpening? ('"' :: (body ++ '"' :: rest)) = none :=
      stringOpening?_eq_none_of_ne (by decide) (by decide) _
    rw [List.cons_append, List.cons_append, List.append_assoc, List.singleton_append, token_cons hopen]
    simp only [beq_self_eq_true, if_true]
    exact quotedName_eq h rest
  | number h => exact token_eq_number h hrest
  | word hc h => exact token_eq_word hc h hrest
  | symbol h => exact token_eq_symbol h hrest
  | endOfInput =>
    rw [hend rfl]
    rfl

/-- No spelling is taken for trivia. -/
theorem trivia?_eq_none (h : Spells terminal cs) (hrest : Loose rest) (hend : terminal = .endOfInput → rest = []) :
    trivia? (cs ++ rest) = none := by
  cases h with
  | @string quoting opening body ho hb =>
    cases ho with
    | bare => exact trivia?_cons_of_ne (by decide) (by decide) (by decide) _
    | national hc =>
      rcases hc with rfl | rfl <;> exact trivia?_cons_of_ne (by decide) (by decide) (by decide) _
    | delimited hc =>
      rcases hc with rfl | rfl <;> exact trivia?_cons_of_ne (by decide) (by decide) (by decide) _
    | nationalDelimited hc hd =>
      rcases hc with rfl | rfl <;> exact trivia?_cons_of_ne (by decide) (by decide) (by decide) _
  | quotedName h => exact trivia?_cons_of_ne (by decide) (by decide) (by decide) _
  | @number n h =>
    obtain ⟨c, cs, hcs, hc⟩ := h.text_eq
    rw [hcs]
    rcases hc with hc | ⟨rfl, -⟩
    · refine trivia?_cons_of_ne (isBlank_of_isDigit hc) ?_ ?_ _
      · rintro rfl
        exact absurd hc (by decide)
      · rintro rfl
        exact absurd hc (by decide)
    · exact trivia?_cons_of_ne (by decide) (by decide) (by decide) _
  | @word c cs hc h =>
    refine trivia?_cons_of_ne ?_ ?_ ?_ _
    · by_contra hblank
      rw [isAlphabetic_of_isBlank (Bool.eq_true_of_not_eq_false hblank)] at hc
      cases hc
    · rintro rfl
      exact absurd hc (by decide)
    · rintro rfl
      exact absurd hc (by decide)
  | symbol h =>
    obtain ⟨c, cs, hs, hm⟩ := markish_of_mem h
    rw [hs]
    refine trivia?_cons (hm.blank c List.mem_cons_self) ?_ ?_
    · intro _
      exact startsWith_append hm.lineComment (hrest.startsWith_eq (by decide))
    · intro hc
      exact startsWith_append (hm.blockComment hc) (hrest.startsWith_eq (by decide))
  | endOfInput =>
    rw [hend rfl]
    rfl

end Spells

end Lexeme

end PlsqlLint
