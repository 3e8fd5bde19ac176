import Gradual.Files.Disk
import Gradual.Files.Path

/-!
A tree of directories and files kept as a value, with the rules by which a path is followed in it:
every name on the way must be a directory, and a step up leads to the directory that holds this one.
-/
namespace Gradual.Files

inductive Entry where
  | directory
  | file (data : Bytes)
  deriving DecidableEq, Repr

/-- Every entry by the names that lead to it from the root; the root itself is always there. -/
structure Tree where
  entries : List (List String × Entry)
  deriving Repr

namespace Tree

def empty : Tree := ⟨[]⟩

def entry? (t : Tree) (place : List String) : Option Entry :=
  if place.isEmpty then some .directory else t.entries.lookup place

def isDirectory (t : Tree) (place : List String) : Bool := t.entry? place = some .directory

def put (t : Tree) (place : List String) (e : Entry) : Tree :=
  ⟨(place, e) :: t.entries.filter (·.1 ≠ place)⟩

/-- Goes from a place through names. What comes last need not exist, but what it is in must. -/
def walk (t : Tree) (place : List String) : List String → Except Obstacle (List String)
  | [] => .ok place
  | name :: names =>
    match t.entry? place with
    | none => .error .missing
    | some (.file _) => .error .notDirectory
    | some .directory =>
      if name = "" ∨ name = "." then t.walk place names
      else if name = ".." then t.walk place.dropLast names
      else t.walk (place ++ [name]) names

/-- The place that a path means to someone at `here`. -/
def locate (t : Tree) (here path : String) : Except Obstacle (List String) :=
  let start := if Path.isAbsolute path then [] else (Path.split here).filter (· ≠ "")
  if path = "" then .error .missing else t.walk start (Path.split path)

def read (t : Tree) (here path : String) : Except FileError Bytes :=
  match t.locate here path with
  | .error obstacle => .error ⟨.opening, path, obstacle⟩
  | .ok place =>
    match t.entry? place with
    | none => .error ⟨.opening, path, .missing⟩
    | some .directory => .error ⟨.reading, path, .directory⟩
    | some (.file data) => .ok data

def has (t : Tree) (here path : String) : Bool :=
  match t.locate here path with
  | .error _ => false
  | .ok place => (t.entry? place).isSome

/-- Puts a file in place of what is there, unless that is a directory. -/
def write (t : Tree) (here path : String) (data : Bytes) : Except FileError Tree :=
  match t.locate here path with
  | .error obstacle => .error ⟨.opening, path, obstacle⟩
  | .ok place =>
    if t.isDirectory place then .error ⟨.opening, path, .directory⟩
    else if t.isDirectory place.dropLast then .ok (t.put place (.file data))
    else .error ⟨.opening, path, if (t.entry? place.dropLast).isSome then .notDirectory else .missing⟩

/-- Makes one directory, in one that exists; slashes at the end of the path do not count. -/
def makeDirectory (t : Tree) (here path : String) : Except Obstacle Tree := do
  let bare := String.ofList (path.toList.reverse.dropWhile (· = '/')).reverse
  let place ← t.locate here bare
  if (t.entry? place).isSome then .error .exists
  else if t.isDirectory place.dropLast then .ok (t.put place .directory)
  else .error .missing

/-- Makes a directory and those it is in, outermost first, which are read off the text of the path.
`fuel` bounds their number. -/
def makeDirectoriesWith (here : String) : Nat → String → Tree → Except FileError Tree
  | 0, path, _ => .error ⟨.makingDirectory, path, .missing⟩
  | fuel + 1, path, t =>
    match t.locate here path |>.toOption.bind t.entry? with
    | some .directory => .ok t
    | some (.file _) => .error ⟨.makingDirectory, path, .notDirectory⟩
    | none => do
      let outer := ((path.toList.reverse.dropWhile (· = '/')).dropWhile (· ≠ '/')).drop 1
      let t ← if outer.isEmpty then pure t
        else makeDirectoriesWith here fuel (String.ofList outer.reverse) t
      match t.makeDirectory here path with
      | .ok t => .ok t
      | .error obstacle =>
        if t.locate here path |>.toOption.any t.isDirectory then .ok t
        else .error ⟨.makingDirectory, path, obstacle⟩

def makeDirectories (t : Tree) (here path : String) : Except FileError Tree :=
  makeDirectoriesWith here (path.length + 1) path t

/-- A change that leaves the tree as it is when it fails. -/
def change (f : Tree → Except FileError Tree) : StateM Tree (Except FileError Unit) := do
  match f (← get) with
  | .ok t => set t; return .ok ()
  | .error e => return .error e

/-- The tree as a disk, for someone who stands at `here`. -/
def disk (here : String) : Disk (StateM Tree) where
  here
  read path := return (← get).read here path
  write path data := change fun t => t.write here path data
  has path := return (← get).has here path
  makeDirectories path := change fun t => t.makeDirectories here path

end Tree

end Gradual.Files
