/-!
# Terminals

The terminal symbols of the grammar: the reserved words, names, literals, operators and marks, and the end of the
input.  Words that are not reserved, such as `NOWAIT`, are names; the grammar asks for them by their text.
-/

namespace PlsqlLint

/-- The reserved words. -/
inductive Keyword where
  | ALL | AND | AS | BEGIN | BETWEEN | BY | COMMIT | DECLARE | DEFAULT | DELETE | DISTINCT | ELSE | ELSIF | END
  | EXCEPTION | EXIT | FALSE | FOR | FROM | GROUP | IF | IN | INSERT | INTO | IS | LIKE | LOOP | NOT | NULL
  | OF | OR | ORDER | RETURN | ROLLBACK | SELECT | SET | THEN | TRUE | UPDATE | VALUES | WHEN | WHERE | WHILE
deriving DecidableEq, Repr

namespace Keyword

/-- All reserved words, in alphabetical order. -/
def all : List Keyword :=
  [.ALL, .AND, .AS, .BEGIN, .BETWEEN, .BY, .COMMIT, .DECLARE, .DEFAULT, .DELETE, .DISTINCT, .ELSE, .ELSIF,
   .END, .EXCEPTION, .EXIT, .FALSE, .FOR, .FROM, .GROUP, .IF, .IN, .INSERT, .INTO, .IS, .LIKE, .LOOP, .NOT,
   .NULL, .OF, .OR, .ORDER, .RETURN, .ROLLBACK, .SELECT, .SET, .THEN, .TRUE, .UPDATE, .VALUES, .WHEN, .WHERE,
   .WHILE]

/-- The spelling of a reserved word in capitals. -/
def text : Keyword → String
  | .ALL => "ALL"
  | .AND => "AND"
  | .AS => "AS"
  | .BEGIN => "BEGIN"
  | .BETWEEN => "BETWEEN"
  | .BY => "BY"
  | .COMMIT => "COMMIT"
  | .DECLARE => "DECLARE"
  | .DEFAULT => "DEFAULT"
  | .DELETE => "DELETE"
  | .DISTINCT => "DISTINCT"
  | .ELSE => "ELSE"
  | .ELSIF => "ELSIF"
  | .END => "END"
  | .EXCEPTION => "EXCEPTION"
  | .EXIT => "EXIT"
  | .FALSE => "FALSE"
  | .FOR => "FOR"
  | .FROM => "FROM"
  | .GROUP => "GROUP"
  | .IF => "IF"
  | .IN => "IN"
  | .INSERT => "INSERT"
  | .INTO => "INTO"
  | .IS => "IS"
  | .LIKE => "LIKE"
  | .LOOP => "LOOP"
  | .NOT => "NOT"
  | .NULL => "NULL"
  | .OF => "OF"
  | .OR => "OR"
  | .ORDER => "ORDER"
  | .RETURN => "RETURN"
  | .ROLLBACK => "ROLLBACK"
  | .SELECT => "SELECT"
  | .SET => "SET"
  | .THEN => "THEN"
  | .TRUE => "TRUE"
  | .UPDATE => "UPDATE"
  | .VALUES => "VALUES"
  | .WHEN => "WHEN"
  | .WHERE => "WHERE"
  | .WHILE => "WHILE"

/-- The reserved word with the given spelling in capitals. -/
def ofText? (s : String) : Option Keyword := all.find? (·.text == s)

end Keyword

/-- The terminal symbols. -/
inductive Terminal where
  | keyword (word : Keyword)
  | identifier | quotedIdentifier | number | string
  | equals | notEqual | lessThan | greaterThan | lessEqual | greaterEqual
  | plus | minus | times | divide | power | concat | assign | arrow | range | labelStart | labelEnd
  | semicolon | comma | leftParen | rightParen | dot | colon | percent | atSign
  | endOfInput
deriving DecidableEq, Repr

namespace Terminal

/-- All terminals: reserved words first, the end of the input last. -/
def all : List Terminal :=
  Keyword.all.map .keyword ++
    [.identifier, .quotedIdentifier, .number, .string, .equals, .notEqual, .lessThan, .greaterThan, .lessEqual,
     .greaterEqual, .plus, .minus, .times, .divide, .power, .concat, .assign, .arrow, .range, .labelStart,
     .labelEnd, .semicolon, .comma, .leftParen, .rightParen, .dot, .colon, .percent, .atSign, .endOfInput]

/-- The name under which tree listings and messages show a terminal. -/
def name : Terminal → String
  | .keyword word => word.text
  | .identifier => "IDENTIFIER"
  | .quotedIdentifier => "QuotedIdentifier"
  | .number => "NUMBER"
  | .string => "STRING"
  | .equals => "EQUALS"
  | .notEqual => "NotEqual"
  | .lessThan => "LessThan"
  | .greaterThan => "GreaterThan"
  | .lessEqual => "LessEqual"
  | .greaterEqual => "GreaterEqual"
  | .plus => "PLUS"
  | .minus => "MINUS"
  | .times => "MULTIPLY"
  | .divide => "DIVIDE"
  | .power => "Exponent"
  | .concat => "Concat"
  | .assign => "Assign"
  | .arrow => "Association"
  | .range => "Range"
  | .labelStart => "LabelStart"
  | .labelEnd => "LabelEnd"
  | .semicolon => "SEMICOLON"
  | .comma => "COMMA"
  | .leftParen => "LeftParen"
  | .rightParen => "RightParen"
  | .dot => "DOT"
  | .colon => "COLON"
  | .percent => "PERCENT"
  | .atSign => "AT"
  | .endOfInput => "EOF"

/-- What a syntax error calls a terminal that it expected. -/
def describe : Terminal → String
  | .keyword word => word.text
  | .identifier => "identifier"
  | .quotedIdentifier => "quoted identifier"
  | .number => "numeric literal"
  | .string => "string literal"
  | .equals => "="
  | .notEqual => "<>"
  | .lessThan => "<"
  | .greaterThan => ">"
  | .lessEqual => "<="
  | .greaterEqual => ">="
  | .plus => "+"
  | .minus => "-"
  | .times => "*"
  | .divide => "/"
  | .power => "**"
  | .concat => "||"
  | .assign => ":="
  | .arrow => "=>"
  | .range => ".."
  | .labelStart => "<<"
  | .labelEnd => ">>"
  | .semicolon => ";"
  | .comma => ","
  | .leftParen => "("
  | .rightParen => ")"
  | .dot => "."
  | .colon => ":"
  | .percent => "%"
  | .atSign => "@"
  | .endOfInput => "end of input"

/-- The reserved words. -/
def isKeyword : Terminal → Bool
  | .keyword _ => true
  | _ => false

/-- Whether two literals of this kind are compared without regard to case.  Quoted names and strings are not. -/
def isCaseless : Terminal → Bool
  | .quotedIdentifier | .string => false
  | _ => true

/-- Names, quoted or not. -/
def isName : Terminal → Bool
  | .identifier | .quotedIdentifier => true
  | _ => false

/-- Operators and marks by their spelling, the longer spellings before the shorter ones that begin them. -/
def symbols : List (List Char × Terminal) :=
  [([':', '='], .assign), (['=', '>'], .arrow), (['.', '.'], .range), (['|', '|'], .concat),
   (['<', '<'], .labelStart), (['>', '>'], .labelEnd), (['<', '='], .lessEqual), (['>', '='], .greaterEqual),
   (['<', '>'], .notEqual), (['!', '='], .notEqual), (['~', '='], .notEqual), (['^', '='], .notEqual),
   (['*', '*'], .power), (['='], .equals), (['<'], .lessThan), (['>'], .greaterThan), (['+'], .plus),
   (['-'], .minus), (['*'], .times), (['/'], .divide), (['('], .leftParen), ([')'], .rightParen),
   ([','], .comma), ([';'], .semicolon), (['.'], .dot), ([':'], .colon), (['%'], .percent), (['@'], .atSign)]

end Terminal

end PlsqlLint
