import PlsqlLint.CommandLine.Run

/-!
# Arguments of the command line

The outermost layer of the program turns a list of arguments into the options of a run.  Options may stand before,
between and behind the files; what stands behind `--` is a file.  An option with a value takes it from the next argument
or, behind an equals sign or (in the short form) directly, from its own.  No option may be given twice.
-/

namespace PlsqlLint.CommandLine

/-- What has been read of the arguments. -/
structure Arguments where
  threads : Option Nat
  maxDepth : Option Nat
  stackMib : Option Nat
  listChecks : Bool
  files : List String
deriving DecidableEq, Repr

namespace Arguments

/-- No arguments. -/
def initial : Arguments := ⟨none, none, none, false, []⟩

/-- What the arguments ask for. -/
def options (a : Arguments) : Options :=
  ⟨a.threads, a.maxDepth.getD Limits.defaultDepth, a.stackMib.getD (Config.defaultWorkerStack >>> 20), a.listChecks,
    a.files⟩

end Arguments

/-- Why the arguments do not ask for a run. -/
inductive Stop where
  /-- The arguments cannot be understood. -/
  | usage
  | version
  | help
deriving DecidableEq, Repr

/-- The options that have a value. -/
inductive Setting where
  | threads | maxDepth | stackMib
deriving DecidableEq, Repr

/-- Reads a number: digits, possibly behind a plus sign, that do not exceed the largest value. -/
def number? (s : String) : Option Nat :=
  let digits := match s.toList with
    | '+' :: cs => cs
    | cs => cs
  if digits.isEmpty || !digits.all Char.isDigit then none
  else
    let n := digits.foldl (fun n c => 10 * n + (c.toNat - '0'.toNat)) 0
    if n ≤ largest then some n else none

/-- Gives an option its value, if it has none yet. -/
def Arguments.set (o : Arguments) (setting : Setting) (value : String) : Except Stop Arguments :=
  match number? value, setting with
  | .none, _ => .error .usage
  | some n, .threads => if o.threads.isSome then .error .usage else .ok { o with threads := some n }
  | some n, .maxDepth => if o.maxDepth.isSome then .error .usage else .ok { o with maxDepth := some n }
  | some n, .stackMib => if o.stackMib.isSome then .error .usage else .ok { o with stackMib := some n }

/-- Adds a file, which must have a name. -/
def Arguments.addFile (o : Arguments) (file : String) : Except Stop Arguments :=
  if file.isEmpty then .error .usage else .ok { o with files := o.files ++ [file] }

/-- Adds files. -/
def Arguments.addFiles (o : Arguments) : List String → Except Stop Arguments
  | [] => .ok o
  | file :: files =>
    match o.addFile file with
    | .ok o => o.addFiles files
    | .error stop => .error stop

/-- What a single argument means, before its value is known. -/
inductive Argument where
  | separator
  /-- An option with its value, if that stands in the same argument. -/
  | setting (setting : Setting) (value : Option String)
  | listChecks
  | stop (stop : Stop)
  | file (name : String)
deriving DecidableEq, Repr

/-- Splits a text at its first equals sign. -/
def splitValue (cs : List Char) : String × Option String :=
  match cs.dropWhile (· != '=') with
  | [] => (String.ofList cs, none)
  | _ :: value => (String.ofList (cs.takeWhile (· != '=')), some (String.ofList value))

/-- An argument that starts with two hyphens. -/
def longArgument (cs : List Char) : Argument :=
  match splitValue cs with
  | ("threads", value) => .setting .threads value
  | ("max-depth", value) => .setting .maxDepth value
  | ("stack-mib", value) => .setting .stackMib value
  | ("list-checks", none) => .listChecks
  | ("version", none) => .stop .version
  | ("help", none) => .stop .help
  | _ => .stop .usage

/-- An argument that starts with one hyphen. -/
def shortArgument (c : Char) (cs : List Char) : Argument :=
  if c == 't' then
    match cs with
    | [] => .setting .threads none
    | '=' :: value => .setting .threads (some (String.ofList value))
    | value => .setting .threads (some (String.ofList value))
  else if c == 'V' then .stop .version
  else if c == 'h' then .stop .help
  else .stop .usage

def Argument.ofString (s : String) : Argument :=
  match s.toList with
  | ['-', '-'] => .separator
  | '-' :: '-' :: cs => longArgument cs
  | '-' :: c :: cs => shortArgument c cs
  | _ => .file s

/-- Reads the arguments one after the other. -/
def Arguments.read (o : Arguments) : List String → Except Stop Arguments
  | [] => .ok o
  | arg :: rest =>
    match Argument.ofString arg with
    | .separator => o.addFiles rest
    | .setting setting (some value) =>
      match o.set setting value with
      | .ok o => o.read rest
      | .error stop => .error stop
    | .setting setting none =>
      match rest with
      | [] => .error .usage
      | value :: rest =>
        -- the value is read as a number, so nothing that starts with a hyphen passes
        match o.set setting value with
        | .ok o => o.read rest
        | .error stop => .error stop
    | .listChecks => if o.listChecks then .error .usage else Arguments.read { o with listChecks := true } rest
    | .stop stop => .error stop
    | .file name =>
      match o.addFile name with
      | .ok o => o.read rest
      | .error stop => .error stop

/-- The options of an argument list.  There must be a file, unless the checks are to be listed. -/
def Options.ofArguments (args : List String) : Except Stop Options :=
  match Arguments.initial.read args with
  | .error stop => .error stop
  | .ok a => if a.files.isEmpty && !a.listChecks then .error .usage else .ok a.options

def versionText : String := "plsql-analyzer 0.1.0\n"

def helpText : String :=
  "Static analysis for PL/SQL source files

Usage: plsql-analyzer [OPTIONS] [FILES]...

Arguments:
  [FILES]...  Source files to analyze

Options:
  -t, --threads <THREADS>      Number of worker threads (defaults to the number of CPUs)
      --max-depth <MAX_DEPTH>  Maximum grammar nesting depth before a file is rejected [default: 512]
      --stack-mib <STACK_MIB>  Stack size of each worker thread in MiB. Deeply nested files need more stack before they reach the nesting depth [default: 16]
      --list-checks            List the available checks and exit
  -h, --help                   Print help
  -V, --version                Print version
"

/-- Runs the program with a list of arguments. -/
def runWith (host : Host) (args : List String) (read : String → Except String ByteArray) : Display :=
  match Options.ofArguments args with
  | .error .usage => ⟨2, "", ""⟩
  | .error .version => ⟨0, versionText, ""⟩
  | .error .help => ⟨0, helpText, ""⟩
  | .ok o => run host o read

/-- The files that a run reads. -/
def filesOf (args : List String) : List String :=
  match Options.ofArguments args with
  | .ok o => if o.listChecks then [] else o.files
  | .error _ => []

end PlsqlLint.CommandLine
