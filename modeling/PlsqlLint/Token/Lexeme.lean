import PlsqlLint.Text.Alphabetic
import PlsqlLint.Text.Blank
import PlsqlLint.Text.Caseless
import PlsqlLint.Text.Numeric
import PlsqlLint.Token.Basic

/-!
# Lexemes

How the first lexeme of a text is found.  `Lexeme.token` cuts off a token and `Lexeme.trivia?` a piece of trivia.
Both split the text they are given (`token_append`, `trivia?_append`), and what they cut off is not empty
(`token_rest_lt`, `trivia?_rest_lt`), the end of the input and a refused character apart.
-/

namespace PlsqlLint

/-- Why a text has no next lexeme. -/
inductive LexFault where
  | unexpectedCharacter (c : Char)
  | unterminatedString
  | unterminatedQuotedIdentifier
  | unterminatedComment
deriving DecidableEq, Repr

/-- A text cut in two: what has been taken and what is left. -/
abbrev Cut := List Char × List Char

namespace Cut

/-- Cuts off all leading characters of a class. -/
def whileIn (p : Char → Bool) (cs : List Char) : Cut := (cs.takeWhile p, cs.dropWhile p)

/-- Takes nothing. -/
def nothing (cs : List Char) : Cut := ([], cs)

/-- Goes on to cut what is left. -/
def andThen (cut : Cut) (next : List Char → Cut) : Cut := (cut.1 ++ (next cut.2).1, (next cut.2).2)

/-- Puts characters that were taken before in front. -/
def after (taken : List Char) (cut : Cut) : Cut := (taken ++ cut.1, cut.2)

end Cut

/-- The result of looking for a lexeme: what was found, the characters that were read, and the rest. -/
structure Lexeme (α : Type) where
  found : Except LexFault α
  taken : List Char
  rest : List Char

namespace Lexeme

/-- The characters that continue a word. -/
def isWordChar (c : Char) : Bool :=
  isAlphabetic c || isNumeric c || c == '_' || c == '$' || c == '#'

/-- Whether the text starts with a character of a class. -/
def startsWith (p : Char → Bool) (cs : List Char) : Bool := cs.head?.any p

/-! ### Numbers -/

/-- A dot and the digits behind it.  A dot that is followed by another one belongs to a range. -/
def fraction : List Char → Cut
  | '.' :: cs => if startsWith (· == '.') cs then .nothing ('.' :: cs) else .after ['.'] (.whileIn Char.isDigit cs)
  | cs => .nothing cs

/-- A sign, if there is one. -/
def sign : List Char → Cut
  | c :: cs => if c == '+' || c == '-' then ([c], cs) else .nothing (c :: cs)
  | [] => .nothing []

/-- An exponent: its mark, a sign if there is one, and at least one digit. -/
def exponent : List Char → Cut
  | c :: cs =>
    if (c == 'e' || c == 'E') && startsWith Char.isDigit (sign cs).2 then
      .after [c] ((sign cs).andThen (.whileIn Char.isDigit))
    else .nothing (c :: cs)
  | [] => .nothing []

/-- The mark of a binary floating-point number, unless a word goes on behind it. -/
def floatMark : List Char → Cut
  | c :: cs =>
    if (c == 'f' || c == 'F' || c == 'd' || c == 'D') && !startsWith isWordChar cs then ([c], cs)
    else .nothing (c :: cs)
  | [] => .nothing []

/-- A number: digits, a fraction, an exponent and a floating-point mark, each of them if it is there. -/
def number (cs : List Char) : Cut :=
  (Cut.whileIn Char.isDigit cs).andThen fraction |>.andThen exponent |>.andThen floatMark

/-! ### Strings -/

/-- Cuts behind the first `a` that is directly followed by `b`. -/
def through (a b : Char) : List Char → Option Cut
  | [] => none
  | c :: cs =>
    if c == a && startsWith (· == b) cs then some (c :: cs.take 1, cs.drop 1)
    else (through a b cs).map (.after [c])

/-- Cuts behind the quote that closes a string; two quotes in a row stand for one inside it. -/
def closeQuote : List Char → Option Cut
  | [] => none
  | '\'' :: '\'' :: cs => (closeQuote cs).map (.after ['\'', '\''])
  | '\'' :: cs => some (['\''], cs)
  | c :: cs => (closeQuote cs).map (.after [c])

/-- The character that closes a freely delimited string: the partner of a bracket, else the delimiter itself. -/
def closingDelimiter (c : Char) : Char :=
  if c == '[' then ']' else if c == '\x7b' then '\x7d' else if c == '(' then ')' else if c == '<' then '>' else c

/-- Cuts behind the end of a freely delimited string whose opening quote has been read. -/
def closeDelimited : List Char → Option Cut
  | [] => none
  | c :: cs => (through (closingDelimiter c) '\'' cs).map (.after [c])

/-- The two ways to write a string. -/
inductive Quoting where
  | plain | delimited
deriving DecidableEq, Repr

/-- Reads the opening of a string up to its quote, with the marks `n`, `q` and `nq` in either case. -/
def stringOpening? : List Char → Option (Quoting × Cut)
  | '\'' :: cs => some (.plain, ['\''], cs)
  | c :: '\'' :: cs =>
    if c.toLower == 'n' then some (.plain, [c, '\''], cs)
    else if c.toLower == 'q' then some (.delimited, [c, '\''], cs)
    else none
  | c :: d :: '\'' :: cs =>
    if c.toLower == 'n' && d.toLower == 'q' then some (.delimited, [c, d, '\''], cs) else none
  | _ => none

/-- Cuts behind the end of a string whose opening has been read. -/
def closeString : Quoting → List Char → Option Cut
  | .plain, cs => closeQuote cs
  | .delimited, cs => closeDelimited cs

/-! ### Tokens -/

/-- The lexeme that a cut of the text gives. -/
def ofCut {α : Type} (found : α) (cut : Cut) : Lexeme α := ⟨.ok found, cut.1, cut.2⟩

/-- A fault that reads the text to its end. -/
def faultToEnd {α : Type} (fault : LexFault) (cs : List Char) : Lexeme α := ⟨.error fault, cs, []⟩

/-- A string whose opening has been read. -/
def string (quoting : Quoting) (opening : Cut) : Lexeme Terminal :=
  match closeString quoting opening.2 with
  | some cut => ofCut .string (.after opening.1 cut)
  | none => faultToEnd .unterminatedString (opening.1 ++ opening.2)

/-- A quoted name whose opening quote has been read.  It ends on its line. -/
def quotedName (cs : List Char) : Lexeme Terminal :=
  let body := cs.takeWhile fun c => c != '"' && c != '\n'
  match cs.dropWhile fun c => c != '"' && c != '\n' with
  | [] => faultToEnd .unterminatedQuotedIdentifier ('"' :: body)
  | c :: rest =>
    if c == '"' then ofCut .quotedIdentifier ('"' :: body ++ [c], rest)
    else ⟨.error .unterminatedQuotedIdentifier, '"' :: body ++ [c], rest⟩

/-- The terminal of a word: a reserved word, in any case, or a name. -/
def wordTerminal (word : List Char) : Terminal :=
  match Keyword.ofText? (upperCase (String.ofList word)) with
  | some keyword => .keyword keyword
  | none => .identifier

/-- A reserved word or a plain name. -/
def word (cs : List Char) : Lexeme Terminal :=
  let cut := Cut.whileIn isWordChar cs
  ofCut (wordTerminal cut.1) cut

/-- An operator or mark, the longest that fits. -/
def symbol (c : Char) (cs : List Char) : Lexeme Terminal :=
  match Terminal.symbols.find? fun s => s.1.isPrefixOf (c :: cs) with
  | some (spelling, terminal) =>
    ofCut terminal ((c :: cs).take spelling.length, (c :: cs).drop spelling.length)
  | none => ⟨.error (.unexpectedCharacter c), [], c :: cs⟩

/-- The token at the beginning of the text. -/
def token (cs : List Char) : Lexeme Terminal :=
  match stringOpening? cs with
  | some (quoting, opening) => string quoting opening
  | none =>
    match cs with
    | [] => ofCut .endOfInput (.nothing [])
    | c :: rest =>
      if c == '"' then quotedName rest
      else if c.isDigit || (c == '.' && startsWith Char.isDigit rest) then ofCut .number (number (c :: rest))
      else if isAlphabetic c then word (c :: rest)
      else symbol c rest

/-- The blanks or the comment at the beginning of the text. -/
def trivia? : List Char → Option (Lexeme TriviaKind)
  | [] => none
  | c :: cs =>
    if isBlank c then some (ofCut .whitespace (.whileIn isBlank (c :: cs)))
    else if c == '-' && startsWith (· == '-') cs then
      some (ofCut .lineComment (.whileIn (· != '\n') (c :: cs)))
    else if c == '/' && startsWith (· == '*') cs then
      match through '*' '/' (cs.drop 1) with
      | some cut => some (ofCut .blockComment (.after ['/', '*'] cut))
      | none => some (faultToEnd .unterminatedComment (c :: cs))
    else none

end Lexeme

end PlsqlLint
