/-!
# Comparison without regard to case

Keywords and unquoted names are compared with the letters of ASCII folded and every other character as it stands.
-/

namespace PlsqlLint

/-- Whether two texts agree once the lower-case letters of ASCII are raised. -/
def sameCaseless (a b : String) : Bool := a.toList.map Char.toUpper == b.toList.map Char.toUpper

/-- The text with the lower-case letters of ASCII raised. -/
def upperCase (a : String) : String := String.ofList (a.toList.map Char.toUpper)

end PlsqlLint
