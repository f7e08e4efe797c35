import PlsqlLint.Check.Message
import PlsqlLint.Tree.Basic

/-!
# Issues

What checks report: issues, which are defects of the source, and failures, which are defects of a check.  An issue
carries the catalogue entry of its check along.
-/

namespace PlsqlLint

/-- How grave an issue is. -/
inductive Severity where
  | blocker | critical | major | minor | info
deriving DecidableEq, Repr

namespace Severity

def all : List Severity := [.blocker, .critical, .major, .minor, .info]

def name : Severity → String
  | .blocker => "Blocker"
  | .critical => "Critical"
  | .major => "Major"
  | .minor => "Minor"
  | .info => "Info"

/-- The severity as listings show it. -/
def label : Severity → String
  | .blocker => "BLOCKER"
  | .critical => "CRITICAL"
  | .major => "MAJOR"
  | .minor => "MINOR"
  | .info => "INFO"

end Severity

/-- The catalogue entry of a check. -/
structure Metadata where
  key : String
  name : String
  /-- The message of an issue, with places for arguments. -/
  template : String
  severity : Severity
  tags : List String
  /-- The estimated effort of a repair. -/
  remediation : String
deriving DecidableEq, Repr

/-- A place that an issue points at. -/
structure Location where
  span : Span
  message : Option String
deriving DecidableEq, Repr

namespace Location

def line (l : Location) : Nat := l.span.start.line

def column (l : Location) : Nat := l.span.start.column

end Location

/-- A defect of the source. -/
structure Issue where
  /-- The check that found it. -/
  source : Metadata
  message : String
  primary : Location
  secondary : List Location
deriving DecidableEq, Repr

namespace Metadata

/-- An issue at a tree with a message of its own. -/
def issueWith (m : Metadata) (t : Tree) (message : String) : Issue := ⟨m, message, ⟨t.span, none⟩, []⟩

/-- An issue at a tree with the message of the template. -/
def issue (m : Metadata) (t : Tree) (args : List String) : Issue := m.issueWith t (fillTemplate m.template args)

end Metadata

namespace Issue

/-- Adds a place with an explanation. -/
def also (i : Issue) (t : Tree) (message : String) : Issue :=
  { i with secondary := i.secondary ++ [⟨t.span, some message⟩] }

end Issue

/-- Why a check fails. -/
inductive CheckError where
  | missingChild (parent : Symbol) (expected : String) (line : Nat)
  | failed (message : String)
  /-- The check broke off, with a message if it left one. -/
  | brokeOff (message : Option String)
deriving DecidableEq, Repr

namespace CheckError

/-- The tree lacks a child that the check relies on. -/
def missing (t : Tree) (expected : String) : CheckError :=
  .missingChild t.symbol expected t.span.start.line

/-- A child that the check relies on. -/
def orMissing (child : Option Tree) (t : Tree) (expected : String) : Except CheckError Tree :=
  match child with
  | some u => .ok u
  | none => .error (missing t expected)

def message : CheckError → String
  | .missingChild parent expected line =>
    parent.name ++ s!" at line {line} has no " ++ expected ++ " child"
  | .failed message => message
  | .brokeOff message => "check panicked: " ++ message.getD "unknown panic payload"

end CheckError

/-- A check that failed at a place and was left out for the rest of the unit. -/
structure Diagnostic where
  key : String
  message : String
  line : Nat
  column : Nat
deriving DecidableEq, Repr

namespace Diagnostic

/-- The diagnostic as a line of text. -/
def text (d : Diagnostic) : String :=
  "check " ++ d.key ++ s!" failed at line {d.line}, column {d.column}: " ++ d.message

end Diagnostic

end PlsqlLint
