import PlsqlLint.Check.Catalog
import PlsqlLint.Check.Engine
import PlsqlLint.Grammar.Parser

/-!
# Analysis of a unit

A unit is read, parsed and scanned by the checks of an engine.  If it cannot be read or parsed, the report says why
and the engine is not used.
-/

namespace PlsqlLint

/-- A piece of source text with a name, such as a file. -/
structure SourceUnit where
  name : String
  text : String
deriving DecidableEq, Repr

/-- Why a unit has no findings. -/
inductive AnalysisError where
  | lexical (error : LexError)
  | parse (error : ParseError)
  /-- The worker that was to analyse the unit did not get to it. -/
  | workerFailed
deriving DecidableEq, Repr

namespace AnalysisError

/-- The line and the column of the failure, if it has a place. -/
def place? : AnalysisError → Option (Nat × Nat)
  | .lexical e => some (e.line, e.column)
  | .parse e => some (e.line, e.column)
  | .workerFailed => none

def message : AnalysisError → String
  | .lexical e => "lexical error: " ++ e.message
  | .parse e => "syntax error: " ++ e.message
  | .workerFailed => "analysis worker terminated unexpectedly"

end AnalysisError

/-- The result for one unit. -/
structure Report where
  name : String
  outcome : Except AnalysisError Outcome

namespace Report

def isFailure (r : Report) : Bool := !r.outcome.isOk

/-- The issues of a unit, none if it failed. -/
def issues (r : Report) : List Issue :=
  match r.outcome with
  | .ok o => o.issues
  | .error _ => []

end Report

/-- What an analysis is given by the machine that it runs on. -/
structure Host where
  /-- How many workers the machine can run at once. -/
  cpus : Nat
  /-- Whether the worker of a number can be started with so many bytes of stack. -/
  starts : (stack worker : Nat) → Bool
  /-- How many bytes of stack a parse uses. -/
  stackUse : StackUse

/-- The settings of an analysis. -/
structure Config where
  /-- How many rules of the grammar may be nested. -/
  maxDepth : Nat
  /-- The number of workers that is asked for. -/
  threads : Nat
  /-- The bytes of stack of each worker. -/
  workerStack : Nat
deriving DecidableEq, Repr

namespace Config

/-- The bytes of stack of a worker, unless others are asked for. -/
def defaultWorkerStack : Nat := 16 * 1024 * 1024

/-- The settings, unless others are asked for. -/
def default (host : Host) : Config := ⟨Limits.defaultDepth, host.cpus, defaultWorkerStack⟩

/-- The share of its stack that a worker may use for a parse. -/
def workerBudget (c : Config) : Nat := c.workerStack / 4 * 3

end Config

/-- Settings, the checks of a new engine, and the machine. -/
structure Analyzer where
  config : Config
  checks : List Check
  host : Host

namespace Analyzer

/-- The analyzer with the built-in checks. -/
def standard (config : Config) (host : Host) : Analyzer := ⟨config, Check.builtIn, host⟩

/-- A new engine. -/
def engine (a : Analyzer) : Engine := ⟨a.checks⟩

/-- The bounds of a parse with a budget of stack. -/
def limits (a : Analyzer) (budget : Nat) : Limits := ⟨a.config.maxDepth, budget, a.host.stackUse⟩

/-- Reads and parses a text within a budget of stack. -/
def parseWithin (a : Analyzer) (budget : Nat) (text : String) : Except AnalysisError Tree :=
  match Parser.ofText text (a.limits budget) with
  | .error e => .error (.lexical e)
  | .ok p =>
    match p.parse.1 with
    | .ok t => .ok t
    | .error e => .error (.parse e)

/-- Reads and parses a text. -/
def parse (a : Analyzer) (text : String) : Except AnalysisError Tree :=
  a.parseWithin Limits.defaultBudget text

/-- Analyses a unit within a budget of stack.  The engine may be used again. -/
def analyzeWithin (a : Analyzer) (budget : Nat) (e : Engine) (unit : SourceUnit) : Report × Engine :=
  match a.parseWithin budget unit.text with
  | .error error => (⟨unit.name, .error error⟩, e)
  | .ok t =>
    let (outcome, e) := e.scan t
    (⟨unit.name, .ok outcome⟩, e)

/-- Analyses a unit.  The engine may be used again. -/
def analyzeWith (a : Analyzer) (e : Engine) (unit : SourceUnit) : Report × Engine :=
  a.analyzeWithin Limits.defaultBudget e unit

/-- Analyses a unit with a new engine. -/
def analyze (a : Analyzer) (unit : SourceUnit) : Report := (a.analyzeWith a.engine unit).1

end Analyzer

end PlsqlLint
