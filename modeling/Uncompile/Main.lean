import Uncompile.CommandLine

/-!
# The program

Reads the files that the arguments name and prints what the run prints.
-/

namespace Uncompile

/-- The environment variable that names a configuration file. -/
def configVariable : String := "IA32DEC_CONFIG"

/-- The content of a file, unless it cannot be read. -/
def readInput (path : String) : IO (String × Option String) := do
  try
    return (path, some (← IO.FS.readFile path))
  catch _ =>
    return (path, none)

end Uncompile

open Uncompile in
def main (args : List String) : IO UInt32 := do
  let configPath ← IO.getEnv configVariable
  let files ← (CommandLine.inputFiles args configPath).mapM readInput
  let outcome := CommandLine.run args configPath fun path => (files.lookup path).join
  IO.print outcome.stdout
  if let some line := outcome.errorLine then
    IO.eprintln ("Error: " ++ line)
  return outcome.exitCode.toUInt32
