import Gradual.Bytes

/-!
What the library asks of the files around it, and how a refusal reads. The operations are kept apart
from any one way of storing files, so that commands run alike on a disk and on a `Tree`.
-/
namespace Gradual.Files

/-- What was being done to a file. -/
inductive Action where
  | opening
  | reading
  | makingDirectory
  deriving DecidableEq, Repr

def Action.name : Action → String
  | .opening => "open"
  | .reading => "read"
  | .makingDirectory => "mkdir"

/-- Why it could not be done. -/
inductive Obstacle where
  | missing
  | directory
  | notDirectory
  | exists
  | other (text : String)
  deriving DecidableEq, Repr

def Obstacle.text : Obstacle → String
  | .missing => "no such file or directory"
  | .directory => "is a directory"
  | .notDirectory => "not a directory"
  | .exists => "file exists"
  | .other text => text

structure FileError where
  action : Action
  path : String
  obstacle : Obstacle
  deriving DecidableEq, Repr

def FileError.message (e : FileError) : String :=
  s!"{e.action.name} {e.path}: {e.obstacle.text}"

/-- The files as seen by someone who stands at the absolute path `here`. -/
structure Disk (m : Type → Type) where
  here : String
  read : String → m (Except FileError Bytes)
  write : String → Bytes → m (Except FileError Unit)
  /-- Whether there is anything at a path. -/
  has : String → m Bool
  makeDirectories : String → m (Except FileError Unit)

end Gradual.Files
