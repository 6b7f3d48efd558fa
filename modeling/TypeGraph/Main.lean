import TypeGraph.Command.Process
import TypeGraph.Manifest.Decode

/-!
# The command line program

The program reads the configuration file, if one is named, and prints what the process
has to say.
-/

open TypeGraph.Command

/-- The text of a file, or why it cannot be read. -/
def readConfig (path : String) : IO (Except FileError String) := do
  try return .ok (← IO.FS.readFile path)
  catch
    | .noFileOrDirectory .. => return .error (.unopened "no such file or directory")
    | .permissionDenied .. => return .error (.unopened "permission denied")
    | .inappropriateType .. => return .error (.unopened "not a directory")
    | e => return .error (.unread (toString e))

def main (args : List String) : IO UInt32 := do
  let outcome ← execute TypeGraph.Manifest.Config.decode readConfig args
  IO.eprint outcome.stderr
  IO.print outcome.stdout
  return outcome.exit.toUInt32
