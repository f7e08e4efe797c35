import PlsqlLint.Grammar.Statement

/-!
# The rules of the grammar

`Rule.body` gives the pattern of the children of each rule, `Rule.root` the pattern that matches a rule on its own.
The nodes of comparisons, members, attributes and calls are built around an operand; their rules have no body.
-/

namespace PlsqlLint

open Pattern

/-- The children of a node of the rule. -/
def Rule.body : Rule → Pattern
  -- units, blocks and declarations
  | .fileInput =>
    sequence [.many (.ifNext [[.oneOf [.divide]]] (terminal .divide) statement), terminal .endOfInput]
  | .blockStatement =>
    sequence [maybeLabel, clause .DECLARE .declareSection, keyword .BEGIN, statements,
      whenNext (.oneOf [.keyword .EXCEPTION])
        (sequence [keyword .EXCEPTION, .call .exceptionHandler, .many (.call .exceptionHandler)]),
      keyword .END, maybeIdentifier, terminal .semicolon]
  | .declareSection => sequence [keyword .DECLARE, .many declaration]
  | .variableDeclaration =>
    sequence [identifier, maybeWord "CONSTANT", .call .datatype,
      whenNext (.oneOf [.keyword .NOT]) (sequence [keyword .NOT, keyword .NULL]),
      whenNext (.oneOf [.assign, .keyword .DEFAULT])
        (sequence [.take (.oneOf [.assign, .keyword .DEFAULT]) ":= or DEFAULT", expression]),
      terminal .semicolon]
  | .exceptionDeclaration => sequence [identifier, keyword .EXCEPTION, terminal .semicolon]
  | .cursorDeclaration =>
    sequence [word "CURSOR", identifier, keyword .IS, .call .selectExpression, terminal .semicolon]
  | .datatype =>
    sequence [dottedName,
      .ifNext [[.oneOf [.percent]]]
        (sequence [terminal .percent, .ifNext [[.word "ROWTYPE"]] (word "ROWTYPE") (word "TYPE")])
        (whenNext (.oneOf [.leftParen])
          (bracketed (sequence [terminal .number,
            whenNext (.oneOf [.comma]) (sequence [terminal .comma, terminal .number]),
            maybeEither "CHAR" "BYTE"])))]
  | .exceptionHandler =>
    sequence [keyword .WHEN, separated reference (keyword .OR), keyword .THEN, statements]
  -- statements
  | .label => sequence [terminal .labelStart, identifier, terminal .labelEnd]
  | .nullStatement => sequence [keyword .NULL, terminal .semicolon]
  | .assignmentStatement => sequence [reference, terminal .assign, expression, terminal .semicolon]
  | .callStatement => sequence [reference, terminal .semicolon]
  | .ifStatement =>
    sequence [keyword .IF, expression, keyword .THEN, statements, .many (.call .elsifClause),
      clause .ELSE .elseClause, keyword .END, keyword .IF, terminal .semicolon]
  | .elsifClause => sequence [keyword .ELSIF, expression, keyword .THEN, statements]
  | .elseClause => sequence [keyword .ELSE, statements]
  | .loopStatement => loop []
  | .whileStatement => loop [keyword .WHILE, expression]
  | .forStatement => loop [keyword .FOR, identifier, keyword .IN, loopRange]
  | .exitStatement => sequence [keyword .EXIT, exitTail]
  | .continueStatement => sequence [word "CONTINUE", exitTail]
  | .returnStatement => sequence [keyword .RETURN, opt expression, terminal .semicolon]
  | .raiseStatement => sequence [word "RAISE", opt reference, terminal .semicolon]
  | .commitStatement => sequence [keyword .COMMIT, workTail]
  | .rollbackStatement => sequence [keyword .ROLLBACK, workTail]
  -- queries
  | .selectStatement => sequence [.call .selectExpression, terminal .semicolon]
  | .selectExpression =>
    sequence [keyword .SELECT, maybe (.oneOf [.keyword .DISTINCT, .keyword .ALL]) "DISTINCT or ALL",
      .ifNext [[.oneOf [.times]]] (terminal .times) (commaList (.call .selectColumn)),
      clause .INTO .intoClause, .call .fromClause, clause .WHERE .whereClause, clause .GROUP .groupByClause,
      clause .ORDER .orderByClause, opt (.call .forUpdateClause)]
  | .selectColumn =>
    sequence [expression, .ifNext [[.oneOf [.keyword .AS]]] (sequence [keyword .AS, identifier]) maybeIdentifier]
  | .intoClause => sequence [keyword .INTO, commaList reference]
  | .fromClause => sequence [keyword .FROM, commaList (.call .tableReference)]
  | .tableReference =>
    sequence [
      .ifNext [[.oneOf [.leftParen]]] (bracketed (.call .selectExpression))
        (sequence [dottedName, whenNext (.oneOf [.atSign]) (sequence [terminal .atSign, identifier])]),
      maybeIdentifier]
  | .whereClause => sequence [keyword .WHERE, expression]
  | .groupByClause => sequence [keyword .GROUP, keyword .BY, commaList expression]
  | .orderByClause =>
    let item := sequence [expression, maybeEither "ASC" "DESC"]
    sequence [keyword .ORDER, keyword .BY, .orElse item (.reject "expression"),
      .many (sequence [terminal .comma, item])]
  | .forUpdateClause =>
    sequence [keyword .FOR, keyword .UPDATE,
      opt (sequence [keyword .OF, commaList (.call .columnReference)]),
      opt (
        .ifNext [[.word "NOWAIT"]] (word "NOWAIT") <|
        .ifNext [[.word "WAIT"]] (sequence [word "WAIT", terminal .number])
          (sequence [word "SKIP", word "LOCKED"]))]
  | .columnReference =>
    sequence [identifier, opt (sequence [terminal .dot, identifier, opt (sequence [terminal .dot, identifier])])]
  | .insertStatement =>
    sequence [keyword .INSERT, keyword .INTO, .call .tableReference,
      opt (bracketed (commaList (.call .columnReference))),
      .ifNext [[.oneOf [.keyword .VALUES]]] (sequence [keyword .VALUES, bracketed (commaList expression)])
        (.call .selectExpression),
      terminal .semicolon]
  | .updateStatement =>
    sequence [keyword .UPDATE, .call .tableReference, keyword .SET, commaList (.call .setClause),
      clause .WHERE .whereClause, terminal .semicolon]
  | .setClause => sequence [.call .columnReference, terminal .equals, expression]
  | .deleteStatement =>
    sequence [keyword .DELETE, maybeKeyword .FROM, .call .tableReference, clause .WHERE .whereClause,
      terminal .semicolon]
  -- expressions
  | .orExpression => separated (.call .andExpression) (keyword .OR)
  | .andExpression => separated negation (keyword .AND)
  | .notExpression => sequence [keyword .NOT, negation]
  | .relationalOperator =>
    .take (.oneOf [.equals, .notEqual, .lessThan, .greaterThan, .lessEqual, .greaterEqual]) "relational operator"
  | .concatenationExpression => separated (.call .additiveExpression) (terminal .concat)
  | .additiveExpression =>
    separated (.call .multiplicativeExpression) (.take (.oneOf [.plus, .minus]) "'+' or '-'")
  | .multiplicativeExpression =>
    separated signed (.ifNext [[.word "MOD"]] (word "MOD") (.take (.oneOf [.times, .divide]) "'*' or '/'"))
  | .unaryExpression => sequence [.take (.oneOf [.plus, .minus]) "'+' or '-'", signed]
  | .exponentiationExpression => separated primary (terminal .power)
  | .bracketedExpression => bracketed (queryOr expression)
  | .numericLiteral => terminal .number
  | .characterLiteral => terminal .string
  | .booleanLiteral => .take (.oneOf [.keyword .TRUE, .keyword .FALSE]) "TRUE or FALSE"
  | .nullLiteral => keyword .NULL
  | .bindVariable =>
    sequence [terminal .colon, .take (.oneOf [.identifier, .quotedIdentifier, .number]) "bind variable name"]
  | .variableName => identifier
  | .arguments =>
    bracketed (.ifNext [[.oneOf [.rightParen]]] .empty (commaList (.call .argument)))
  | .argument =>
    .ifNext [[.oneOf [.times]]] (terminal .times)
      (sequence [.ifNext [[.name, .oneOf [.arrow]]] (sequence [identifier, terminal .arrow]) .empty, expression])
  -- built around an operand
  | .comparisonExpression | .isNullExpression | .likeExpression | .betweenExpression | .inExpression
  | .memberExpression | .methodCall | .attributeExpression => .fail

/-- The levels of binary operators: without an operator there is no node, only the operand. -/
def Rule.collapses : Rule → Bool
  | .orExpression | .andExpression | .concatenationExpression | .additiveExpression | .multiplicativeExpression
  | .exponentiationExpression => true
  | _ => false

/-- The pattern that matches the rule on its own. -/
def Rule.root : Rule → Pattern
  | .notExpression => negation
  | .unaryExpression => signed
  | .comparisonExpression => .only .comparisonExpression (Rule.name .relationalOperator) comparison
  | .isNullExpression => .only .isNullExpression (Rule.name .isNullExpression) comparison
  | .likeExpression => .only .likeExpression (Rule.name .likeExpression) comparison
  | .betweenExpression => .only .betweenExpression (Rule.name .betweenExpression) comparison
  | .inExpression => .only .inExpression (Rule.name .inExpression) comparison
  | .numericLiteral => .only .numericLiteral (Rule.name .numericLiteral) literal
  | .characterLiteral => .only .characterLiteral (Rule.name .characterLiteral) literal
  | .booleanLiteral => .only .booleanLiteral (Rule.name .booleanLiteral) literal
  | .nullLiteral => .only .nullLiteral (Rule.name .nullLiteral) literal
  | .memberExpression => .only .memberExpression (Rule.name .memberExpression) reference
  | .methodCall => .only .methodCall (Rule.name .methodCall) reference
  | .attributeExpression => .only .attributeExpression (Rule.name .attributeExpression) reference
  | rule => .call rule

end PlsqlLint
