import Petscii.Command.Run
import Petscii.Source.Unicode
/-!
# The command

The command on the machine it runs on: its files, its standard input and its standard output.
-/

namespace Petscii

/-- The fault behind an error of the machine, by its number. -/
def faultOfCode (code : UInt32) (details : String) : FileTree.Fault :=
  if code = 2 then .noEntry
  else if code = 20 then .notDirectory
  else if code = 21 then .isDirectory
  else if code = 22 then .invalid
  else .other details

def faultOfError : IO.Error → FileTree.Fault
  | .noFileOrDirectory _ code details => faultOfCode code details
  | .inappropriateType _ code details => faultOfCode code details
  | .invalidArgument _ code details => faultOfCode code details
  | .permissionDenied _ _ _ => .denied
  | e => .other (toString e)

def onPath {α : Type} (action : FileTree.Action) (path : String) (act : IO α) :
    IO (Except PathError α) := do
  try
    return .ok (← act)
  catch e =>
    return .error ⟨action, path, faultOfError e⟩

def onStream {α : Type} (action name : String) (act : IO α) : IO (Except Stream.Error α) := do
  try
    return .ok (← act)
  catch e =>
    return .error (.other (action ++ " " ++ name ++ ": " ++ (faultOfError e).text))

instance : Host IO where
  readFile path := do
    match ← onPath .opening path (IO.FS.Handle.mk path .read) with
    | .error e => return .error e
    | .ok handle => onPath .reading path do
      return (← handle.readBinToEnd).toList
  writeFile path data :=
    onPath .opening path (IO.FS.writeBinFile path (ByteArray.mk data.toArray))
  isInteractive := do
    (← IO.getStdin).isTty
  readInput := onStream "read" "/dev/stdin" do
    return (← (← IO.getStdin).readBinToEnd).toList
  writeOutput data := onStream "write" "/dev/stdout" do
    let out ← IO.getStdout
    out.write (ByteArray.mk data.toArray)
    out.flush

end Petscii

def main (arguments : List String) : IO UInt32 := do
  let report ← (Petscii.Command.run .unicode arguments : IO Petscii.Command.Report)
  (← IO.getStderr).putStr report.stderr
  return report.exit.number.toUInt32
