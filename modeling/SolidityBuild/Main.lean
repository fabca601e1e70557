import SolidityBuild.Project

/-!
# The command line

Reads a project document from standard input and writes what the build of it yields to standard output.
Errors go to standard error: the exit code is 2 for a wrong command line and 1 for a failed build.
-/

namespace SolidityBuild

/-- Reports an error and answers an exit code. -/
def fail (code : UInt32) (message : String) : IO UInt32 := do
  (← IO.getStderr).putStrLn ("ERROR: " ++ message)
  return code

end SolidityBuild

def main (words : List String) : IO UInt32 := do
  match SolidityBuild.CommandLine.parse words with
  | .error fault => SolidityBuild.fail 2 fault.message
  | .ok line =>
    match SolidityBuild.Project.ofText? (← (← IO.getStdin).readToEnd) with
    | none => SolidityBuild.fail 1 "standard input is not a project document"
    | some project =>
      match project.build line with
      | .error e => SolidityBuild.fail 1 e.message
      | .ok output =>
        (← IO.getStdout).putStrLn output.pretty
        return 0
