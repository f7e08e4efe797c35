import PlsqlLint.Grammar.Pattern

/-!
# Expressions

The levels of precedence, from the loosest: `OR`, `AND`, `NOT`, comparisons, `||`, sums, products, signs, `**`, and
the primaries with what follows them.  A level with binary operators is a rule of its own; the patterns below are the
levels that are not.
-/

namespace PlsqlLint.Pattern

/-- Any expression. -/
def expression : Pattern := .call .orExpression

/-- What a comparison compares. -/
def operand : Pattern := .call .concatenationExpression

/-- A query or, if it does not start with `SELECT`, something else. -/
def queryOr (p : Pattern) : Pattern := .ifNext [[.oneOf [.keyword .SELECT]]] (.call .selectExpression) p

/-! ### Comparisons -/

/-- A relational operator and its right operand. -/
def relationalTail : Pattern := sequence [.call .relationalOperator, operand]

/-- `[NOT] MEMBER | SUBMULTISET [OF]` and the right operand. -/
def collectionTail : Pattern :=
  sequence [maybeKeyword .NOT,
    .ifNext [[.word "MEMBER"]] (word "MEMBER") (word "SUBMULTISET"),
    maybeKeyword .OF, operand]

/-- `IS [NOT] NULL` -/
def isNullTail : Pattern := sequence [keyword .IS, maybeKeyword .NOT, keyword .NULL]

/-- `[NOT] LIKE pattern [ESCAPE mark]` -/
def likeTail : Pattern :=
  sequence [maybeKeyword .NOT, keyword .LIKE, operand, opt (sequence [word "ESCAPE", operand])]

/-- `[NOT] BETWEEN low AND high` -/
def betweenTail : Pattern :=
  sequence [maybeKeyword .NOT, keyword .BETWEEN, operand, keyword .AND, operand]

/-- `[NOT] IN` and a list of values or a query in brackets. -/
def inTail : Pattern :=
  sequence [maybeKeyword .NOT, keyword .IN, bracketed (queryOr (commaList expression))]

/-- What may follow the left operand of a comparison, with the rule whose node it forms, in the order in which it is
tried. -/
def comparisonTails : List (Rule × Pattern) :=
  [(.comparisonExpression, relationalTail), (.comparisonExpression, collectionTail),
   (.isNullExpression, isNullTail), (.likeExpression, likeTail), (.betweenExpression, betweenTail),
   (.inExpression, inTail)]

/-- A node of the rule over the left operand and the tail. -/
def comparisonWith (rule : Rule) (tail : Pattern) : Pattern := .node rule (.seq .left (.within rule tail))

/-- An operand and at most one comparison behind it. -/
def comparison : Pattern :=
  .onto operand (choice (comparisonTails.map (fun t => comparisonWith t.1 t.2) ++ [.left]))

/-- A comparison, negated or not. -/
def negation : Pattern := .ifNext [[.oneOf [.keyword .NOT]]] (.call .notExpression) comparison

/-! ### Primaries -/

/-- A number, a string, a truth value or `NULL`. -/
def literal : Pattern :=
  .ifNext [[.oneOf [.number]]] (.call .numericLiteral) <|
  .ifNext [[.oneOf [.string]]] (.call .characterLiteral) <|
  .ifNext [[.oneOf [.keyword .TRUE, .keyword .FALSE]]] (.call .booleanLiteral) <|
  .ifNext [[.oneOf [.keyword .NULL]]] (.call .nullLiteral) (.reject "literal")

/-- What continues a reference: a member, an attribute, or arguments. -/
def linkAhead : Lookahead := [[.oneOf [.dot, .percent], .member], [.oneOf [.leftParen]]]

/-- A member, an attribute or a call, built onto what comes before it. -/
def link : Pattern :=
  .ifNext [[.oneOf [.dot]]]
    (.node .memberExpression (sequence [.left, terminal .dot, .take .member "identifier"])) <|
  .ifNext [[.oneOf [.percent]]]
    (.node .attributeExpression (sequence [.left, terminal .percent, .take .member "identifier"]))
    (.node .methodCall (sequence [.left, .call .arguments]))

/-- A variable, plain or bound, with any chain of members, attributes and calls. -/
def reference : Pattern :=
  .chain (.ifNext [[.oneOf [.colon]]] (.call .bindVariable) (.call .variableName)) linkAhead link

/-- A literal, a bracketed expression or a reference. -/
def primary : Pattern :=
  .ifNext [[.oneOf [.number, .string, .keyword .TRUE, .keyword .FALSE, .keyword .NULL]]] literal <|
  .ifNext [[.oneOf [.leftParen]]] (.call .bracketedExpression) reference

/-- A power, signed or not. -/
def signed : Pattern :=
  .ifNext [[.oneOf [.plus, .minus]]] (.call .unaryExpression) (.call .exponentiationExpression)

end PlsqlLint.Pattern
