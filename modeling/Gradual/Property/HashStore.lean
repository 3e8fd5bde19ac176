/-!
Property stores: finite maps from names to values, as chained hash tables. The number of buckets is a
power of two and doubles when there are more entries than buckets. Everything works for an arbitrary
hash function; only the order in which keys are listed depends on it.
-/
namespace Gradual

structure HashEntry (α : Type) where
  key : String
  hash : UInt64
  value : α
  deriving Repr

structure HashStore (α : Type) where
  buckets : Array (List (HashEntry α))
  size : Nat
  deriving Repr

namespace HashStore

variable {α : Type}

/-- The first power of two from `count` on, in steps of doubling, that reaches the hint. -/
def bucketCount (hint : Nat) : Nat → Nat → Nat
  | 0, count => count
  | fuel + 1, count => if count < hint then bucketCount hint fuel (2 * count) else count

/-- An empty store with room for about `hint` entries and eight buckets at least. -/
def empty (hint : Nat) : HashStore α := ⟨Array.replicate (bucketCount hint hint 8) [], 0⟩

/-- The bucket of a hash: its low bits. -/
def index (s : HashStore α) (hash : UInt64) : Nat := hash.toNat % s.buckets.size

def bucket (s : HashStore α) (hash : UInt64) : List (HashEntry α) := s.buckets.getD (s.index hash) []

def HashEntry.isAt (hash : UInt64) (key : String) (e : HashEntry α) : Bool :=
  e.hash = hash && e.key = key

def find? (hash : String → UInt64) (s : HashStore α) (key : String) : Option (HashEntry α) :=
  (s.bucket (hash key)).find? (HashEntry.isAt (hash key) key)

def get? (hash : String → UInt64) (s : HashStore α) (key : String) : Option α :=
  (s.find? hash key).map (·.value)

def contains (hash : String → UInt64) (s : HashStore α) (key : String) : Bool :=
  (s.find? hash key).isSome

def setBucket (s : HashStore α) (hash : UInt64) (entries : List (HashEntry α)) : HashStore α :=
  { s with buckets := s.buckets.setIfInBounds (s.index hash) entries }

def entries (s : HashStore α) : List (HashEntry α) := s.buckets.toList.flatten

/-- Puts an entry in front of its bucket without a look at the entries there. -/
def link (buckets : Array (List (HashEntry α))) (e : HashEntry α) : Array (List (HashEntry α)) :=
  buckets.modify (e.hash.toNat % buckets.size) (e :: ·)

/-- Doubles the number of buckets and distributes the entries anew. -/
def grow (s : HashStore α) : HashStore α :=
  { s with buckets := s.entries.foldl link (Array.replicate (2 * s.buckets.size) []) }

def put (hash : String → UInt64) (s : HashStore α) (key : String) (value : α) : HashStore α :=
  let h := hash key
  if s.contains hash key then
    s.setBucket h ((s.bucket h).map fun e => if HashEntry.isAt h key e then { e with value } else e)
  else
    let s : HashStore α := { s.setBucket h (⟨key, h, value⟩ :: s.bucket h) with size := s.size + 1 }
    if s.buckets.size < s.size then s.grow else s

/-- Removes a key and says whether it was there. -/
def erase (hash : String → UInt64) (s : HashStore α) (key : String) : HashStore α × Bool :=
  let h := hash key
  if s.contains hash key then
    ({ s.setBucket h ((s.bucket h).eraseP (HashEntry.isAt h key)) with size := s.size - 1 }, true)
  else (s, false)

/-- Every key once, in the order of the buckets. -/
def keys (s : HashStore α) : List String := s.entries.map (·.key)

def toList (s : HashStore α) : List (String × α) := s.entries.map fun e => (e.key, e.value)

end HashStore

end Gradual
