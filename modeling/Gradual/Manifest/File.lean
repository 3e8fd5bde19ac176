import Gradual.Files.Disk
import Gradual.Manifest.Basic
import Gradual.Toml.Document

/-!
Manifests in files. A manifest is a TOML document of sections; what it does not mention keeps its
default, and what it mentions beyond that is passed over. Names of sections and fields are told apart
without regard to case.
-/
namespace Gradual

open Files

/-- Letters that differ in case only come to the same letter, the long s and the Kelvin sign
included. -/
def foldCase (c : Char) : Char :=
  if c = 'ſ' then 's' else if c = 'K' then 'k' else c.toLower

def sameName (a b : String) : Bool := a.toList.map foldCase = b.toList.map foldCase

/-- Takes the value of a field into a manifest. -/
abbrev FieldReader := Toml.Value → Manifest → Option Manifest

def readText (set : Manifest → String → Manifest) : FieldReader
  | .string s, m => some (set m s)
  | _, _ => none

def readInteger (set : Manifest → Int → Manifest) : FieldReader
  | .integer n, m => some (set m n)
  | _, _ => none

/-- Reads the fields that are known, in the order of the document. -/
def readFields (known : List (String × FieldReader)) (fields : Toml.Fields) (m : Manifest) :
    Option Manifest :=
  fields.foldlM (fun m (name, v) =>
    match known.find? fun k => sameName k.1 name with
    | some (_, read) => read v m
    | none => some m) m

def readSection (known : List (String × FieldReader)) : FieldReader
  | .table fields, m => readFields known fields m
  | _, _ => none

inductive ManifestError where
  | unreadable (path : String) (e : FileError)
  | malformed (path : String)
  | invalid (path : String) (complaints : List Complaint)
  deriving DecidableEq, Repr

def ManifestError.message : ManifestError → String
  | unreadable path e => s!"cannot read {path}: {e.message}"
  | malformed path => s!"parse error in {path}: malformed document"
  | invalid path complaints =>
    path ++ ": " ++ "\n".intercalate (complaints.map Complaint.message)

namespace Manifest

def sections : List (String × FieldReader) :=
  [("project", readSection [("name", readText fun m s => { m with project := s })]),
    ("runtime", readSection [
      ("conversion-slots", readInteger fun m n => { m with conversionSlots := n }),
      ("coerce-depth", readInteger fun m n => { m with coerceDepth := n }),
      ("subtype-depth", readInteger fun m n => { m with subtypeDepth := n }),
      ("arg-stack", readInteger fun m n => { m with argStack := n }),
      ("arg-variance", readText fun m s => { m with variance := s })]),
    ("types", readSection [("table", readText fun m s => { m with table := s })]),
    ("log", readSection [
      ("verbosity", readInteger fun m n => { m with verbosity := n }),
      ("file", readText fun m s => { m with logFile := s })]),
    ("cache", readSection [("path", readText fun m s => { m with cache := s })])]

/-- The manifest of a document. -/
def ofToml? (data : Bytes) : Option Manifest := do
  readFields sections (← Toml.parse? data) default

/-- The manifest that the bytes at a path hold. -/
def ofFile (here directory path : String) (data : Bytes) : Except ManifestError Manifest :=
  match ofToml? data with
  | none => .error (.malformed path)
  | some m =>
    if m.isValid then .ok { m with directory := Path.absolute here directory }
    else .error (.invalid path m.complaints)

/-- Reads the manifest of a directory. -/
def load [Monad m] (disk : Disk m) (directory : String) : m (Except ManifestError Manifest) := do
  let path := Path.join [directory, fileName]
  match ← disk.read path with
  | .error e => return .error (.unreadable path e)
  | .ok data => return ofFile disk.here directory path data

/-- The first directory of a list that has a manifest. -/
def findIn [Monad m] (disk : Disk m) : List String → m (Option String)
  | [] => return none
  | directory :: rest => do
    if ← disk.has (Path.join [directory, fileName]) then return some directory
    else findIn disk rest

/-- Reads the manifest of the nearest directory above a path, or of that path, that has one. -/
def find [Monad m] (disk : Disk m) (start : String) : m (Except ManifestError (Option Manifest)) := do
  match ← findIn disk (Path.ancestors (Path.absolute disk.here start)) with
  | none => return .ok none
  | some directory => return (← load disk directory).map some

end Manifest

end Gradual
