import Gradual.Cbor.Reading
import Gradual.Files.Disk
import Gradual.Relations.Cache

/-!
Caches of relations in files. A file holds a mark and then the rows, one data item each; it is always
written whole.
-/
namespace Gradual

open Files Cbor

def RelationRow.toItem (r : RelationRow) : Item :=
  .array [.string r.digest, .uint r.variance.code, .string r.left, .string r.right,
    .uint r.rel.code, .bool r.result]

def RelationRow.ofItem? : Item → Option RelationRow
  | .array [.text [digest], .uint variance, .text [left], .text [right], .uint rel, result] => do
    return ⟨← Bytes.toString? digest, Variance.ofCode variance, ← Bytes.toString? left,
      ← Bytes.toString? right, Relation.ofCode rel, ← result.asBool?⟩
  | _ => none

/-- A cache that cannot be opened. -/
inductive CacheOpenError where
  /-- There is no file, and none can be made. -/
  | unreachable
  /-- The file holds something else. -/
  | foreign
  deriving DecidableEq, Repr

def CacheOpenError.message : CacheOpenError → String
  | unreachable => "relcache: setting busy timeout: unable to open database file"
  | foreign => "relcache: creating table: file is not a database"

namespace RelationCache

/-- The text that every cache file begins with. -/
def mark : Bytes := Bytes.ofString "relations"

def bytes (cache : RelationCache) : Bytes :=
  (Item.text [mark]).encode ++ cache.rows.flatMap (·.toItem.encode)

/-- An empty file is an empty cache. -/
def ofBytes? (data : Bytes) : Option RelationCache :=
  if data.isEmpty then some empty
  else match Item.parseAll? data with
    | some (.text [first] :: rows) => do
      if first = mark then return ⟨← rows.mapM RelationRow.ofItem?⟩ else none
    | _ => none

/-- Paths that stand for a cache of one's own that no file holds. -/
def isPrivate (path : String) : Bool := path = "" || path = ":memory:"

/-- Writes a cache to its file, if it has one. -/
def save [Monad m] (disk : Disk m) (path : String) (cache : RelationCache) :
    m (Except CacheOpenError Unit) := do
  if isPrivate path then return .ok ()
  match ← disk.write path cache.bytes with
  | .ok () => return .ok ()
  | .error _ => return .error .unreachable

/-- Opens the cache at a path. If there is no file, an empty one is made. -/
def openAt [Monad m] (disk : Disk m) (path : String) : m (Except CacheOpenError RelationCache) := do
  if isPrivate path then return .ok empty
  match ← disk.read path with
  | .ok data =>
    match ofBytes? data with
    | none => return .error .foreign
    | some cache => return (← save disk path cache).map fun _ => cache
  | .error _ => return (← save disk path empty).map fun _ => empty

end RelationCache

end Gradual
