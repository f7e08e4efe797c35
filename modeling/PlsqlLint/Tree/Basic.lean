import PlsqlLint.Token.Basic
import PlsqlLint.Tree.Symbol

/-!
# Syntax trees

A leaf holds a token, an inner node a rule and its children in the order of the source.  The span of an inner node
is the union of its children's spans; a node without children has an empty span at a place that is given when it is
built (`Tree.ofRule`).
-/

namespace PlsqlLint

/-- A syntax tree. -/
inductive Tree where
  | leaf (token : Token)
  | node (rule : Rule) (span : Span) (children : List Tree)

namespace Tree

/-- What holds of leaves, and of a node if it holds of its children, holds of all trees. -/
@[induction_eliminator]
theorem induction {P : Tree → Prop} (leaf : ∀ token, P (.leaf token))
    (node : ∀ rule span children, (∀ t ∈ children, P t) → P (.node rule span children)) (t : Tree) : P t :=
  @Tree.rec P (fun ts => ∀ t ∈ ts, P t) leaf node (by simp) (fun _ _ ht hts => List.forall_mem_cons.2 ⟨ht, hts⟩) t

/-- The symbol that labels the root. -/
def symbol : Tree → Symbol
  | .leaf token => .terminal token.terminal
  | .node rule _ _ => .rule rule

def span : Tree → Span
  | .leaf token => token.span
  | .node _ span _ => span

def children : Tree → List Tree
  | .leaf _ => []
  | .node _ _ children => children

/-- The token of a leaf. -/
def token? : Tree → Option Token
  | .leaf token => some token
  | .node .. => none

/-- The rule of an inner node. -/
def rule? : Tree → Option Rule
  | .leaf _ => none
  | .node rule _ _ => some rule

def isLeaf (t : Tree) : Bool := t.token?.isSome

/-- The inner node of a rule over children, at `place` if there are none. -/
def ofRule (rule : Rule) (children : List Tree) (place : Position) : Tree :=
  .node rule ((Span.unionAll? (children.map span)).getD (.empty place)) children

/-- Whether the root is labelled with the symbol. -/
def is (t : Tree) (symbol : Symbol) : Bool := t.symbol == symbol

/-! ### Looking at the children -/

def firstChild? (t : Tree) : Option Tree := t.children.head?

def lastChild? (t : Tree) : Option Tree := t.children.getLast?

/-- The first child with the symbol. -/
def firstOf? (t : Tree) (symbol : Symbol) : Option Tree := t.children.find? (·.is symbol)

/-- The last child with the symbol. -/
def lastOf? (t : Tree) (symbol : Symbol) : Option Tree := t.children.reverse.find? (·.is symbol)

/-- The children with the symbol, in order. -/
def childrenOf (t : Tree) (symbol : Symbol) : List Tree := t.children.filter (·.is symbol)

/-- Whether some child has the symbol. -/
def hasChild (t : Tree) (symbol : Symbol) : Bool := (t.firstOf? symbol).isSome

/-- The token reached by going to the first child again and again.  There is none if that ends in a node without
children. -/
def firstToken? : Tree → Option Token
  | .leaf token => some token
  | .node _ _ [] => none
  | .node _ _ (child :: _) => child.firstToken?

/-- The text of the first token. -/
def value? (t : Tree) : Option String := t.firstToken?.map (·.literal)

end Tree

end PlsqlLint
