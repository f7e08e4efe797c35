/-!
# Positions and spans

A position counts what lies before a place in a text: lines, characters of the current line, and bytes.  Reading a
character moves the position (`Position.next`), reading a text moves it character by character
(`Position.after_append`).  A span is the stretch between two positions; the union of two spans is the least span
that holds both.
-/

namespace PlsqlLint

/-- A place in a source text.  Lines count from one, columns from zero and in characters; the offset is the number
of bytes before the place when the text is encoded in UTF-8. -/
structure Position where
  line : Nat
  column : Nat
  offset : Nat
deriving DecidableEq, Repr, Inhabited

namespace Position

/-- The beginning of a text. -/
def start : Position := ⟨1, 0, 0⟩

/-- The place behind the character `c`.  Only a line feed starts a new line. -/
def next (p : Position) (c : Char) : Position :=
  if c = '\n' then ⟨p.line + 1, 0, p.offset + c.utf8Size⟩ else ⟨p.line, p.column + 1, p.offset + c.utf8Size⟩

/-- The place behind the text `cs`. -/
def after (p : Position) (cs : List Char) : Position := cs.foldl next p

@[simp] theorem after_nil (p : Position) : p.after [] = p := rfl

@[simp] theorem after_cons (p : Position) (c : Char) (cs : List Char) :
    p.after (c :: cs) = (p.next c).after cs := rfl

theorem after_append (p : Position) (cs ds : List Char) : p.after (cs ++ ds) = (p.after cs).after ds := by
  simp [after]

/-- Positions are ordered by line, then by column, then by offset. -/
instance : LT Position where
  lt p q := p.line < q.line ∨
    p.line = q.line ∧ (p.column < q.column ∨ p.column = q.column ∧ p.offset < q.offset)

instance (p q : Position) : Decidable (p < q) :=
  inferInstanceAs (Decidable (p.line < q.line ∨
    p.line = q.line ∧ (p.column < q.column ∨ p.column = q.column ∧ p.offset < q.offset)))

/-- The earlier of two positions. -/
def earlier (p q : Position) : Position := if q < p then q else p

/-- The later of two positions. -/
def later (p q : Position) : Position := if p < q then q else p

end Position

/-- The stretch of a source text from `start` up to `stop`. -/
structure Span where
  start : Position
  stop : Position
deriving DecidableEq, Repr, Inhabited

namespace Span

/-- The span of length zero at a position. -/
def empty (p : Position) : Span := ⟨p, p⟩

/-- The least span that holds both. -/
def union (a b : Span) : Span := ⟨a.start.earlier b.start, a.stop.later b.stop⟩

/-- The length in bytes, zero if the span runs backwards. -/
def length (a : Span) : Nat := a.stop.offset - a.start.offset

def isEmpty (a : Span) : Bool := decide (a.stop.offset ≤ a.start.offset)

/-- The union of the spans of a list, if there are any. -/
def unionAll? : List Span → Option Span
  | [] => none
  | a :: rest => some (rest.foldl union a)

end Span

end PlsqlLint
