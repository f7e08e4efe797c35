import PlsqlLint.Analysis.Pool
import PlsqlLint.CommandLine.Options
import PlsqlLint.Text.Padding

/-!
# Running the command line

The program reads all files, analyses them and prints the issues to the standard output; failures of units and of
checks go to the standard error.  Reading and writing are left to the caller: `run` is given the contents of the files
and returns what is to be printed, with the exit code.
-/

namespace PlsqlLint.CommandLine

/-- What a run of the program shows. -/
structure Display where
  code : Nat
  stdout : String
  stderr : String
deriving DecidableEq, Repr

/-- A line of the list of checks. -/
def checkLine (m : Metadata) : String :=
  padRight 24 m.key ++ " " ++ padRight 8 m.severity.label ++ " " ++ padRight 6 m.remediation ++ " " ++ m.name ++
    " [" ++ ", ".intercalate m.tags ++ "]\n"

/-- A place in a file, with lines and columns counted from one. -/
def placeText (file : String) (l : Location) : String := file ++ s!":{l.line}:{l.column + 1}: "

/-- The lines on an issue. -/
def issueLines (file : String) (i : Issue) : String :=
  placeText file i.primary ++ i.source.severity.label ++ " [" ++ i.source.key ++ "] " ++ i.message ++ "\n" ++
    String.join (i.secondary.map fun l => "    " ++ placeText file l ++ l.message.getD "" ++ "\n")

/-- What is printed to the standard output for a report. -/
def reportOutput (r : Report) : String :=
  match r.outcome with
  | .ok o => String.join (o.issues.map (issueLines r.name))
  | .error _ => ""

/-- What is printed to the standard error for a report. -/
def reportErrors (r : Report) : String :=
  match r.outcome with
  | .ok o => String.join (o.diagnostics.map fun d => r.name ++ ": warning: " ++ d.text ++ "\n")
  | .error e => r.name ++ ": error: " ++ e.message ++ "\n"

/-- What is shown for reports; the exit code tells whether some unit failed. -/
def display (reports : List Report) : Display :=
  ⟨if reports.any Report.isFailure then 1 else 0, String.join (reports.map reportOutput),
    String.join (reports.map reportErrors)⟩

/-- Why a file cannot be read when there is none of that name. -/
def notFound : String := "No such file or directory (os error 2)"

/-- Why a file cannot be read when its bytes are no text. -/
def notText : String := "stream did not contain valid UTF-8"

/-- The text of a file, or why it cannot be read. -/
def fileText (contents : Except String ByteArray) : Except String String :=
  match contents with
  | .error reason => .error reason
  | .ok bytes =>
    match String.fromUTF8? bytes with
    | some text => .ok text
    | none => .error notText

/-- The units of files, or the first file that cannot be read and why. -/
def readUnits (read : String → Except String ByteArray) : List String → Except (String × String) (List SourceUnit)
  | [] => .ok []
  | file :: files =>
    match fileText (read file) with
    | .error reason => .error (file, reason)
    | .ok text =>
      match readUnits read files with
      | .ok units => .ok (⟨file, text⟩ :: units)
      | .error e => .error e

/-- What is shown when a file cannot be read. -/
def readFailure (file reason : String) : Display :=
  ⟨1, "", "Error: Failed to read " ++ file ++ "\n\nCaused by:\n    " ++ reason ++ "\n"⟩

/-- Runs the program. -/
def run (host : Host) (o : Options) (read : String → Except String ByteArray) : Display :=
  if o.listChecks then ⟨0, String.join (Check.builtIn.map (checkLine ·.metadata)), ""⟩
  else
    match readUnits read o.files with
    | .error (file, reason) => readFailure file reason
    | .ok units => display ((Analyzer.standard (o.config host) host).analyzeAll units)

end PlsqlLint.CommandLine
