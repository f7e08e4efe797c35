/-!
# Message templates

A template holds the places `{0}`, `{1}`, … for arguments.  The arguments are put in one after the other,
each at all of its places in the text that the earlier ones have left.
-/

namespace PlsqlLint

/-- Replaces a text, given by its first character and the others, wherever it occurs, from left to right and without
overlap. -/
def replaceAll (first : Char) (others new : List Char) : List Char → List Char
  | [] => []
  | c :: cs =>
    if c == first && others.isPrefixOf cs then new ++ replaceAll first others new (cs.drop others.length)
    else c :: replaceAll first others new cs
termination_by cs => cs.length
decreasing_by all_goals simp; try omega

/-- The place of the argument with number `n`, without its opening brace. -/
def placeTail (n : Nat) : List Char := Nat.toDigits 10 n ++ ['\x7d']

/-- Puts in arguments, the first of which has the number `n`. -/
def fillFrom (n : Nat) (text : List Char) : List String → List Char
  | [] => text
  | arg :: args => fillFrom (n + 1) (replaceAll '\x7b' (placeTail n) arg.toList text) args

/-- The message of a template with arguments. -/
def fillTemplate (template : String) (args : List String) : String :=
  String.ofList (fillFrom 0 template.toList args)

end PlsqlLint
