import Gradual.Relations.File

/-!
A cache in use: it is opened at a path, answers until it is closed, and may be opened again. What was
stored before is found again if the path is that of a file.
-/
namespace Gradual

open Files

structure CacheSession where
  path : String
  cache : RelationCache
  closed : Bool

namespace CacheSession

variable {m : Type → Type} [Monad m] [Codec]

def openAt (disk : Disk m) (path : String) : m (Except CacheOpenError CacheSession) := do
  return (← RelationCache.openAt disk path).map fun cache => ⟨path, cache, false⟩

/-- What keeps a request from being served: a closed cache is told before a canceled request. -/
def blocked (s : CacheSession) (canceled : Bool) : Option Interruption :=
  if s.closed then some .closed else if canceled then some .canceled else none

/-- Decides all pairs of a table and writes the cache. -/
def precompute (disk : Disk m) (s : CacheSession) (canceled : Bool) (t : Table) (c : Checker) :
    m (Except CacheError (Nat × CacheSession)) := do
  match s.cache.precompute (s.blocked canceled) t c with
  | .error e => return .error e
  | .ok (cache, n) =>
    discard (cache.save disk s.path)
    return .ok (n, { s with cache })

def count (s : CacheSession) (canceled : Bool) (t : Table) (variance : Variance) :
    Except CacheError Nat :=
  s.cache.count (s.blocked canceled) t variance

def remembered (s : CacheSession) (canceled : Bool) (t : Table) (variance : Variance) :
    Except CacheError RememberedAnswers :=
  s.cache.remembered (s.blocked canceled) t variance

def close (s : CacheSession) : CacheSession := { s with closed := true }

end CacheSession

end Gradual
