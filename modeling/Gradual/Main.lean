import Gradual.Command.Run
import Gradual.Table.Cbor

/-!
The program: runs a command on the files of the system.
-/
namespace Gradual.Program

open Files

def obstacleOf : IO.Error → Obstacle
  | .noFileOrDirectory .. => .missing
  | .inappropriateType _ code details =>
    if code = 21 then .directory else if code = 20 then .notDirectory else .other details
  | .alreadyExists .. => .exists
  | .permissionDenied .. => .other "permission denied"
  | e => .other (toString e)

/-- Runs an action on a file. -/
def attempt (action : Action) (path : String) (act : IO α) : IO (Except FileError α) := do
  try
    return .ok (← act)
  catch e => return .error ⟨action, path, obstacleOf e⟩

/-- Reading fails in one way if there is no file and in another if there is a directory. -/
def readFile (path : String) : IO (Except FileError Bytes) := do
  match ← attempt .opening path (IO.FS.readBinFile path) with
  | .ok data => return .ok data.toList
  | .error e => return .error (if e.obstacle = .directory then { e with action := .reading } else e)

def exists? (path : String) : IO Bool := do
  try
    discard (IO.FS.Handle.mk path .read)
    return true
  catch _ => return false

def systemDisk (here : String) : Disk IO where
  here
  read := readFile
  write path data := attempt .opening path (IO.FS.writeBinFile path ⟨data.toArray⟩)
  has := exists?
  makeDirectories path := attempt .makingDirectory path (IO.FS.createDirAll path)

/-- A random identifier of 32 hexadecimal digits in five groups. -/
def freshSession : IO String := do
  let digits := (Text.hexBytes (← IO.getRandomBytes 16).toList).toList
  let group (start size : Nat) := String.ofList ((digits.drop start).take size)
  return "-".intercalate [group 0 8, group 8 4, group 12 4, group 16 4, group 20 12]

end Gradual.Program

open Gradual Gradual.Program in
def main (args : List String) : IO UInt32 := do
  let stdout ← IO.getStdout
  let stderr ← IO.getStderr
  let here := (← IO.currentDir).toString
  match ← Command.run (systemDisk here) (← stdout.isTty) (← freshSession) args with
  | .ok outcome =>
    stdout.putStr outcome.out
    stderr.putStr outcome.err
    return outcome.code.toUInt32
  | .error fault =>
    stderr.putStrLn fault.message
    return 2
