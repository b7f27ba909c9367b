import GraphScribe.Console.Run

/-!
# The command line tool

Reads the files that the arguments name and prints the report of the run.
-/
namespace GraphScribe.Console

def readFile? (path : String) : IO (Option String) := do
  try return some (← IO.FS.readFile path)
  catch _ => return none

def readFiles (paths : List String) : IO (List (String × String)) :=
  paths.filterMapM fun path => do return (← readFile? path).map (path, ·)

end GraphScribe.Console

open GraphScribe.Console in
def main (args : List String) : IO UInt32 := do
  let paths := ((Request.ofArguments? args).map Request.paths).getD []
  let files ← readFiles paths
  let report := run (fun path => files.lookup path) args
  IO.print report.output
  IO.eprint report.errorOutput
  return UInt32.ofNat report.exitCode
