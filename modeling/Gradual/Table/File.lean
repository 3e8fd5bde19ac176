import Gradual.Files.Disk
import Gradual.Files.Path
import Gradual.Table.Authoring
import Gradual.Table.Compiled

/-!
Tables in files. The ending of a file's name tells its form, in capitals or not: `.yaml` and `.yml`
hold a document, `.cbor` and `.sjt` a compiled table. Files are always written in the compiled form.
-/
namespace Gradual

open Files

inductive TableFileError where
  | file (e : FileError)
  | unknownFormat (path : String)
  | content (path : String) (e : TableReadError)
  /-- The table has no compiled form. -/
  | table (e : TableError)
  deriving DecidableEq, Repr

def TableReadError.message : TableReadError → String
  | yaml => "tagfile: malformed document"
  | cbor => "tagfile: unmarshal table: malformed data"
  | table e => e.message

def TableFileError.message : TableFileError → String
  | file e => "tagfile: " ++ e.message
  | unknownFormat path => "tagfile: unknown file format: " ++ path
  | content path e => path ++ ": " ++ e.message
  | table e => e.message

namespace Table

variable [Codec]

/-- Reads a table in the form that the ending of the file's name tells. -/
def ofFile (path : String) (data : Bytes) : Except TableFileError Table :=
  let ending := (Path.extension path).toLower
  if ending = ".yaml" ∨ ending = ".yml" then (Table.ofYaml data).mapError (.content path)
  else if ending = ".cbor" ∨ ending = ".sjt" then (Table.decode data).mapError (.content path)
  else .error (.unknownFormat path)

/-- A file that cannot be read is told before its ending is looked at. -/
def load [Monad m] (disk : Disk m) (path : String) : m (Except TableFileError Table) := do
  return ((← disk.read path).mapError .file).bind (ofFile path)

/-- A table without a compiled form leaves the file alone. -/
def save [Monad m] (disk : Disk m) (t : Table) (path : String) : m (Except TableFileError Unit) :=
  match t.encode with
  | .error e => return .error (.table e)
  | .ok data => return (← disk.write path data).mapError .file

end Table

end Gradual
