/-!
Paths as text: names divided by slashes. Nothing here looks at the files themselves.
-/
namespace Gradual.Files.Path

/-- The names between the slashes; two slashes in a row have an empty name between them. -/
def namesOf : List Char → List (List Char)
  | [] => [[]]
  | c :: cs =>
    if c = '/' then [] :: namesOf cs
    else match namesOf cs with
      | [] => [[c]]
      | name :: names => (c :: name) :: names

def split (path : String) : List String := (namesOf path.toList).map String.ofList

def isAbsolute (path : String) : Bool := path.toList.head? = some '/'

/-- Takes one more name to a path whose names are kept last first. A step up takes a name away; above
the root there is nothing, and a relative path keeps the steps that lead out of it. -/
def step (absolute : Bool) (names : List String) (name : String) : List String :=
  if name = "" ∨ name = "." then names
  else if name = ".." then
    match names with
    | [] => if absolute then [] else [".."]
    | last :: before => if last = ".." then ".." :: names else before
  else name :: names

def render (absolute : Bool) (names : List String) : String :=
  if absolute then "/" ++ "/".intercalate names
  else if names.isEmpty then "."
  else "/".intercalate names

/-- The shortest path that means the same without looking at the files. -/
def clean (path : String) : String :=
  let absolute := isAbsolute path
  render absolute ((split path).foldl (step absolute) []).reverse

/-- Paths one inside the other; empty ones do not count. -/
def join (paths : List String) : String :=
  let paths := paths.filter (· ≠ "")
  if paths.isEmpty then "" else clean ("/".intercalate paths)

/-- The path seen from the root, by someone who stands at `here`. -/
def absolute (here path : String) : String :=
  if isAbsolute path then clean path else join [here, path]

/-- What stands before the last name. -/
def parent (path : String) : String :=
  clean (String.ofList (path.toList.reverse.dropWhile (· ≠ '/')).reverse)

/-- An absolute path and all that it is in, innermost first. -/
def ancestors (path : String) : List String :=
  let names := ((split path).foldl (step true) []).reverse
  (List.range (names.length + 1)).reverse.map fun n => render true (names.take n)

/-- The last name; slashes at the end do not count. -/
def base (path : String) : String :=
  if path = "" then "."
  else
    let name := (path.toList.reverse.dropWhile (· = '/')).takeWhile (· ≠ '/')
    if name.isEmpty then "/" else String.ofList name.reverse

/-- The last name from its last point on. -/
def extension (path : String) : String :=
  let name := path.toList.reverse.takeWhile (· ≠ '/')
  let ending := name.takeWhile (· ≠ '.')
  if ending.length = name.length then "" else String.ofList ('.' :: ending.reverse)

end Gradual.Files.Path
