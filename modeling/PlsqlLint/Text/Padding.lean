/-!
# Padding

Columns of a listing are filled with blanks up to a width in characters.  A longer text is not cut.
-/

namespace PlsqlLint

/-- Blanks up to the given width of the text. -/
def padding (width : Nat) (s : String) : String := String.ofList (List.replicate (width - s.length) ' ')

/-- The text at the left of a column. -/
def padRight (width : Nat) (s : String) : String := s ++ padding width s

/-- The text at the right of a column. -/
def padLeft (width : Nat) (s : String) : String := padding width s ++ s

end PlsqlLint
