import PlsqlLint.Grammar.Cursor
import PlsqlLint.Tree.Symbol

/-!
# Patterns

The grammar is written with patterns, which are data.  A pattern is matched at a place in a stream of tokens; it
matches a stretch of the stream and yields a list of trees, or it does not match.  Choices are ordered: the second
part of `Pattern.orElse` is tried only where the first does not match.  Rules refer to each other by name
(`Pattern.call`).
-/

namespace PlsqlLint

/-- A class of tokens. -/
inductive TokenClass where
  | oneOf (terminals : List Terminal)
  /-- An unreserved word. -/
  | word (text : String)
  /-- A name, quoted or not. -/
  | name
  /-- What may stand behind a dot: a name or a reserved word. -/
  | member
deriving DecidableEq, Repr

/-- Whether the token belongs to the class. -/
def TokenClass.accepts : TokenClass → Token → Bool
  | .oneOf terminals, t => terminals.contains t.terminal
  | .word text, t => t.isWord text
  | .name, t => t.terminal.isName
  | .member, t => t.terminal.isName || t.terminal.isKeyword

/-- A condition on the coming tokens: the classes of one of the lists fit them one by one. -/
abbrev Lookahead := List (List TokenClass)

namespace Cursor

/-- Whether the classes fit the tokens from the `n`-th on. -/
def fits (c : Cursor) (n : Nat) : List TokenClass → Bool
  | [] => true
  | k :: ks => k.accepts (c.peek n) && c.fits (n + 1) ks

def sees (c : Cursor) (ahead : Lookahead) : Bool := ahead.any (c.fits 0)

end Cursor

/-- What the rules of the grammar are made of. -/
inductive Pattern where
  /-- Matches without reading anything. -/
  | empty
  /-- A token of a class; `expected` names the class in a syntax error. -/
  | take (accepted : TokenClass) (expected : String)
  /-- The next token, whatever it is. -/
  | advance
  /-- Does not match. -/
  | fail
  /-- Does not match, and says what was expected. -/
  | reject (expected : String)
  /-- Matches if rules may be nested `levels` deeper. -/
  | room (levels : Nat)
  | seq (first second : Pattern)
  /-- The second pattern, where the first does not match. -/
  | orElse (first second : Pattern)
  /-- As often as possible, but never twice at one place. -/
  | many (item : Pattern)
  | ifNext (ahead : Lookahead) (yes no : Pattern)
  /-- The body of a rule: one level deeper. -/
  | within (rule : Rule) (body : Pattern)
  /-- A node of the rule over what the pattern yields. -/
  | node (rule : Rule) (body : Pattern)
  /-- The same, but a single tree stands for itself. -/
  | collapse (rule : Rule) (body : Pattern)
  /-- A node of the rule over what the body of the rule yields. -/
  | call (rule : Rule)
  /-- Only if the pattern yields a node of the rule; `expected` names what is missing otherwise. -/
  | only (rule : Rule) (expected : String) (body : Pattern)
  /-- Yields only the last of the trees. -/
  | last (body : Pattern)
  /-- Matches `tail` behind `operand`; in `tail`, what the operand yields is at hand as `left`. -/
  | onto (operand tail : Pattern)
  /-- Yields what the operand has yielded. -/
  | left
  /-- Matches `link` onto what has been yielded so far, again and again while the lookahead holds. -/
  | chain (operand : Pattern) (ahead : Lookahead) (link : Pattern)
  /-- Behind a loop that `left` may label: nothing, or the name that the label gave. -/
  | closingLabel

namespace Pattern

/-- One pattern after the other. -/
def sequence : List Pattern → Pattern
  | [] => .empty
  | [p] => p
  | p :: ps => .seq p (sequence ps)

/-- The first of the patterns that matches. -/
def choice : List Pattern → Pattern
  | [] => .fail
  | p :: ps => .orElse p (choice ps)

def opt (p : Pattern) : Pattern := .orElse p .empty

/-- The pattern if a token of the class is next, else nothing. -/
def whenNext (accepted : TokenClass) (p : Pattern) : Pattern := .ifNext [[accepted]] p .empty

/-- A given terminal. -/
def terminal (t : Terminal) : Pattern := .take (.oneOf [t]) t.describe

/-- A reserved word. -/
def keyword (k : Keyword) : Pattern := terminal (.keyword k)

/-- An unreserved word. -/
def word (w : String) : Pattern := .take (.word w) w

/-- A name, quoted or not. -/
def identifier : Pattern := .take .name "identifier"

/-- A token that may be left out. -/
def maybe (accepted : TokenClass) (expected : String) : Pattern :=
  whenNext accepted (.take accepted expected)

/-- A reserved word that may be left out. -/
def maybeKeyword (k : Keyword) : Pattern := maybe (.oneOf [.keyword k]) k.text

/-- An unreserved word that may be left out. -/
def maybeWord (w : String) : Pattern := maybe (.word w) w

/-- A name that may be left out. -/
def maybeIdentifier : Pattern := maybe .name "identifier"

/-- A rule that is entered if the reserved word it starts with is next. -/
def clause (k : Keyword) (rule : Rule) : Pattern := whenNext (.oneOf [.keyword k]) (.call rule)

/-- Operands with an operator between any two of them. -/
def separated (operand operator : Pattern) : Pattern := .seq operand (.many (.seq operator operand))

/-- A list with commas between its items. -/
def commaList (item : Pattern) : Pattern := separated item (terminal .comma)

/-- A pattern in round brackets. -/
def bracketed (p : Pattern) : Pattern := sequence [terminal .leftParen, p, terminal .rightParen]

end Pattern

end PlsqlLint
