import PlsqlLint.Analysis.Basic

/-!
# Options of a run

What a run of the program is asked for, and the settings of the analysis that follow from it.
-/

namespace PlsqlLint.CommandLine

/-- What a run is asked for. -/
structure Options where
  /-- The number of workers, if it is given. -/
  threads : Option Nat
  /-- How many rules of the grammar may be nested. -/
  maxDepth : Nat
  /-- The stack of each worker, in units of 2^20 bytes. -/
  stackMib : Nat
  /-- Whether the checks are to be listed, and nothing else. -/
  listChecks : Bool
  files : List String
deriving DecidableEq, Repr

/-- The largest number of bytes, and the largest value of an option. -/
def largest : Nat := UInt64.size - 1

/-- The settings that options ask for. -/
def Options.config (o : Options) (host : Host) : Config where
  maxDepth := o.maxDepth
  threads := o.threads.getD (Config.default host).threads
  workerStack := min (o.stackMib <<< 20) largest

end PlsqlLint.CommandLine
