import PlsqlLint.CommandLine.Arguments

/-!
# The program

Reads the files named on the command line and prints what the run displays.
-/

namespace PlsqlLint.CommandLine

/-- The system's reason for not reading a file. -/
def readError : IO.Error → String
  | .noFileOrDirectory .. => notFound
  | .permissionDenied .. => "Permission denied (os error 13)"
  | .inappropriateType .. => "Is a directory (os error 21)"
  | e => toString e

/-- Reads a file. -/
def readContents (file : String) : IO (Except String ByteArray) := do
  try
    return .ok (← IO.FS.readBinFile file)
  catch e =>
    return .error (readError e)

/-- The machine, as far as the program knows it: one worker is enough, since the workers have their turns one after the
other, and the stack is not measured, so any use of it counts as one byte. -/
def host : Host where
  cpus := 1
  starts stack _ := stack < 1 <<< 47
  stackUse _ _ := 1

end PlsqlLint.CommandLine

open PlsqlLint.CommandLine

def main (args : List String) : IO UInt32 := do
  let contents ← (filesOf args).mapM fun file => do return (file, ← readContents file)
  let shown := runWith host args fun file => (contents.lookup file).getD (.error notFound)
  (← IO.getStdout).putStr shown.stdout
  (← IO.getStderr).putStr shown.stderr
  return shown.code.toUInt32
