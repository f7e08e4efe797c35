import PlsqlLint.Check.Basic
import PlsqlLint.Tree.Equality

/-!
# The built-in checks

Both look at comparisons with a relational operator.  `Check.identicalOperands` finds those that compare something
with itself, `Check.nullOperand` those that compare with `NULL`.
-/

namespace PlsqlLint.Check

/-- The catalogue entry of the check for identical operands. -/
def identicalOperandsEntry : Metadata where
  key := "IdenticalExpression"
  name := "Identical expressions should not be used on both sides of a binary operator"
  template := "Identical sub-expressions on both sides of operator \"\x7b0\x7d\"."
  severity := .blocker
  tags := ["bug"]
  remediation := "2min"

/-- The issue of a comparison of something with itself.  Comparisons of collections have no relational operator and are
left alone. -/
def identicalOperandIssues (t : Tree) : Except CheckError (List Issue) :=
  match t.firstOf? (.rule .relationalOperator) with
  | none => return []
  | some operator => do
    let left ← CheckError.orMissing t.firstChild? t "left operand"
    let right ← CheckError.orMissing t.lastChild? t "right operand"
    if left.equal right then
      return [(identicalOperandsEntry.issue left [operator.value?.getD ""]).also right "Original"]
    else return []

/-- The check for comparisons of something with itself. -/
def identicalOperands : Check :=
  onVisit identicalOperandsEntry [.rule .comparisonExpression] identicalOperandIssues

/-- The catalogue entry of the check for comparisons with `NULL`. -/
def nullOperandEntry : Metadata where
  key := "ComparisonWithNull"
  name := "Comparisons with NULL should use IS NULL"
  template := "Fix this comparison or change to \"IS NULL\"."
  severity := .blocker
  tags := ["bug"]
  remediation := "5min"

/-- The issue of a comparison with `NULL`. -/
def nullOperandIssues (t : Tree) : List Issue :=
  let isNull (operand : Option Tree) : Bool := operand.any (·.is (.rule .nullLiteral))
  if t.hasChild (.rule .relationalOperator) && (isNull t.firstChild? || isNull t.lastChild?) then
    [nullOperandEntry.issue t []]
  else []

/-- The check for comparisons with `NULL`, which are never true. -/
def nullOperand : Check := onEnter nullOperandEntry [.rule .comparisonExpression] nullOperandIssues

/-- The built-in checks, in the order of their registration. -/
def builtIn : List Check := [identicalOperands, nullOperand]

end PlsqlLint.Check
