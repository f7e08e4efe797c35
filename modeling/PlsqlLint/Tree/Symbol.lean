import PlsqlLint.Token.Terminal

/-!
# Rules and symbols

The rules of the grammar and, with the terminals, the symbols that label the nodes of a syntax tree.
-/

namespace PlsqlLint

/-- The rules of the grammar. -/
inductive Rule where
  | fileInput | blockStatement | declareSection | variableDeclaration | exceptionDeclaration
  | cursorDeclaration | datatype | exceptionHandler | label | nullStatement | assignmentStatement
  | callStatement | ifStatement | elsifClause | elseClause | loopStatement | whileStatement | forStatement
  | exitStatement | continueStatement | returnStatement | raiseStatement | commitStatement | rollbackStatement
  | selectStatement | selectExpression | selectColumn | intoClause | fromClause | tableReference | whereClause
  | groupByClause | orderByClause | forUpdateClause | columnReference | insertStatement | updateStatement
  | setClause | deleteStatement | orExpression | andExpression | notExpression | comparisonExpression
  | relationalOperator | isNullExpression | likeExpression | betweenExpression | inExpression
  | concatenationExpression | additiveExpression | multiplicativeExpression | unaryExpression
  | exponentiationExpression | bracketedExpression | numericLiteral | characterLiteral | booleanLiteral
  | nullLiteral | bindVariable | variableName | memberExpression | methodCall | arguments | argument
  | attributeExpression
deriving DecidableEq, Repr

namespace Rule

/-- All rules: units, declarations, statements, queries, expressions. -/
def all : List Rule :=
  [.fileInput, .blockStatement, .declareSection, .variableDeclaration, .exceptionDeclaration,
   .cursorDeclaration, .datatype, .exceptionHandler, .label, .nullStatement, .assignmentStatement,
   .callStatement, .ifStatement, .elsifClause, .elseClause, .loopStatement, .whileStatement, .forStatement,
   .exitStatement, .continueStatement, .returnStatement, .raiseStatement, .commitStatement, .rollbackStatement,
   .selectStatement, .selectExpression, .selectColumn, .intoClause, .fromClause, .tableReference, .whereClause,
   .groupByClause, .orderByClause, .forUpdateClause, .columnReference, .insertStatement, .updateStatement,
   .setClause, .deleteStatement, .orExpression, .andExpression, .notExpression, .comparisonExpression,
   .relationalOperator, .isNullExpression, .likeExpression, .betweenExpression, .inExpression,
   .concatenationExpression, .additiveExpression, .multiplicativeExpression, .unaryExpression,
   .exponentiationExpression, .bracketedExpression, .numericLiteral, .characterLiteral, .booleanLiteral,
   .nullLiteral, .bindVariable, .variableName, .memberExpression, .methodCall, .arguments, .argument,
   .attributeExpression]

/-- The name of a rule in tree listings and messages. -/
def name : Rule → String
  | .fileInput => "FILE_INPUT"
  | .blockStatement => "BLOCK_STATEMENT"
  | .declareSection => "DECLARE_SECTION"
  | .variableDeclaration => "VARIABLE_DECLARATION"
  | .exceptionDeclaration => "EXCEPTION_DECLARATION"
  | .cursorDeclaration => "CURSOR_DECLARATION"
  | .datatype => "DATATYPE"
  | .exceptionHandler => "EXCEPTION_HANDLER"
  | .label => "LABEL"
  | .nullStatement => "NULL_STATEMENT"
  | .assignmentStatement => "ASSIGNMENT_STATEMENT"
  | .callStatement => "CALL_STATEMENT"
  | .ifStatement => "IF_STATEMENT"
  | .elsifClause => "ELSIF_CLAUSE"
  | .elseClause => "ELSE_CLAUSE"
  | .loopStatement => "LOOP_STATEMENT"
  | .whileStatement => "WHILE_STATEMENT"
  | .forStatement => "FOR_STATEMENT"
  | .exitStatement => "EXIT_STATEMENT"
  | .continueStatement => "CONTINUE_STATEMENT"
  | .returnStatement => "RETURN_STATEMENT"
  | .raiseStatement => "RAISE_STATEMENT"
  | .commitStatement => "COMMIT_STATEMENT"
  | .rollbackStatement => "ROLLBACK_STATEMENT"
  | .selectStatement => "SELECT_STATEMENT"
  | .selectExpression => "SELECT_EXPRESSION"
  | .selectColumn => "SELECT_COLUMN"
  | .intoClause => "INTO_CLAUSE"
  | .fromClause => "FROM_CLAUSE"
  | .tableReference => "TABLE_REFERENCE"
  | .whereClause => "WHERE_CLAUSE"
  | .groupByClause => "GROUP_BY_CLAUSE"
  | .orderByClause => "ORDER_BY_CLAUSE"
  | .forUpdateClause => "FOR_UPDATE_CLAUSE"
  | .columnReference => "COLUMN_REFERENCE"
  | .insertStatement => "INSERT_STATEMENT"
  | .updateStatement => "UPDATE_STATEMENT"
  | .setClause => "SET_CLAUSE"
  | .deleteStatement => "DELETE_STATEMENT"
  | .orExpression => "OR_EXPRESSION"
  | .andExpression => "AND_EXPRESSION"
  | .notExpression => "NOT_EXPRESSION"
  | .comparisonExpression => "COMPARISON_EXPRESSION"
  | .relationalOperator => "RELATIONAL_OPERATOR"
  | .isNullExpression => "IS_NULL_EXPRESSION"
  | .likeExpression => "LIKE_EXPRESSION"
  | .betweenExpression => "BETWEEN_EXPRESSION"
  | .inExpression => "IN_EXPRESSION"
  | .concatenationExpression => "CONCATENATION_EXPRESSION"
  | .additiveExpression => "ADDITIVE_EXPRESSION"
  | .multiplicativeExpression => "MULTIPLICATIVE_EXPRESSION"
  | .unaryExpression => "UNARY_EXPRESSION"
  | .exponentiationExpression => "EXPONENTIATION_EXPRESSION"
  | .bracketedExpression => "BRACKETED_EXPRESSION"
  | .numericLiteral => "NUMERIC_LITERAL"
  | .characterLiteral => "CHARACTER_LITERAL"
  | .booleanLiteral => "BOOLEAN_LITERAL"
  | .nullLiteral => "NULL_LITERAL"
  | .bindVariable => "BIND_VARIABLE"
  | .variableName => "VARIABLE_NAME"
  | .memberExpression => "MEMBER_EXPRESSION"
  | .methodCall => "METHOD_CALL"
  | .arguments => "ARGUMENTS"
  | .argument => "ARGUMENT"
  | .attributeExpression => "ATTRIBUTE_EXPRESSION"

end Rule

/-- A symbol of the grammar. -/
inductive Symbol where
  | rule (rule : Rule)
  | terminal (terminal : Terminal)
deriving DecidableEq, Repr

namespace Symbol

/-- All symbols, the rules before the terminals. -/
def all : List Symbol := Rule.all.map .rule ++ Terminal.all.map .terminal

def name : Symbol → String
  | .rule r => r.name
  | .terminal t => t.name

end Symbol

end PlsqlLint
