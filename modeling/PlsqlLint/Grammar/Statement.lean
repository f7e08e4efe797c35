import PlsqlLint.Grammar.Expression

/-!
# Statements and declarations

Ordered choices and shapes that several rules share.
-/

namespace PlsqlLint.Pattern

/-- The rules of the statements, in the order in which they are tried. -/
def statementRules : List Rule :=
  [.blockStatement, .nullStatement, .ifStatement, .loopStatement, .whileStatement, .forStatement, .exitStatement,
   .continueStatement, .returnStatement, .raiseStatement, .commitStatement, .rollbackStatement, .selectStatement,
   .insertStatement, .updateStatement, .deleteStatement, .assignmentStatement, .callStatement]

def statement : Pattern := choice (statementRules.map .call)

/-- One statement or more. -/
def statements : Pattern := .seq statement (.many statement)

/-- The rules of the declarations, in the order in which they are tried. -/
def declarationRules : List Rule := [.exceptionDeclaration, .cursorDeclaration, .variableDeclaration]

def declaration : Pattern := choice (declarationRules.map .call)

/-- A label in front of a statement, if there is one. -/
def maybeLabel : Pattern := whenNext (.oneOf [.labelStart]) (.call .label)

/-- A loop: a label if there is one, the head, and the body, whose end may repeat the label. -/
def loop (head : List Pattern) : Pattern :=
  .onto maybeLabel (sequence (.left :: head ++
    [keyword .LOOP, .many statement, keyword .END, keyword .LOOP, .closingLabel, terminal .semicolon]))

/-- What a `FOR` loop runs over: a query, a range or a cursor. -/
def loopRange : Pattern :=
  choice
    [bracketed (.call .selectExpression),
     sequence [maybeWord "REVERSE", expression, terminal .range, expression],
     reference]

/-- The end of an `EXIT` or `CONTINUE` statement: `[label] [WHEN condition] ;` -/
def exitTail : Pattern :=
  sequence [maybeIdentifier, whenNext (.oneOf [.keyword .WHEN]) (sequence [keyword .WHEN, expression]),
    terminal .semicolon]

/-- The end of a `COMMIT` or `ROLLBACK` statement: `[WORK] ;` -/
def workTail : Pattern := sequence [maybeWord "WORK", terminal .semicolon]

/-- Names with dots between them. -/
def dottedName : Pattern := separated identifier (terminal .dot)

/-- One of two words, if it is next. -/
def maybeEither (a b : String) : Pattern := .ifNext [[.word a]] (word a) (maybeWord b)

end PlsqlLint.Pattern
