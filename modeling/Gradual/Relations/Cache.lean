import Gradual.Table.Compiled

/-!
Remembered relations between the named types of tables. A row tells how one pair of names was decided
under one variance, for the table with one digest; so one cache serves several tables and both
variances, and rows of a table that has changed since are never found again.
-/
namespace Gradual

variable [Codec]

structure RelationRow where
  digest : String
  variance : Variance
  left : String
  right : String
  rel : Relation
  result : Bool
  deriving DecidableEq, Repr

structure RelationCache where
  rows : List RelationRow
  deriving DecidableEq, Repr

/-- Why a cache gives no answer at all, whatever it holds. -/
inductive Interruption where
  | closed
  | canceled
  deriving DecidableEq, Repr

def Interruption.message : Interruption → String
  | closed => "sql: database is closed"
  | canceled => "context canceled"

/-- What a cache was asked to do. -/
inductive CacheAction where
  | precompute
  | count
  | oracle
  deriving DecidableEq, Repr

def CacheAction.stage : CacheAction → String
  | precompute => "begin"
  | count => "counting rows"
  | oracle => "querying relations"

inductive CacheError where
  | table (e : TableError)
  | interrupted (action : CacheAction) (why : Interruption)
  /-- There are no rows for the table under this variance. -/
  | notPrecomputed (digest : String) (variance : Variance)
  deriving DecidableEq, Repr

def CacheError.message : CacheError → String
  | table e => e.message
  | interrupted action why => s!"relcache: {action.stage}: {why.message}"
  | notPrecomputed digest variance =>
    s!"relcache: table not precomputed (digest {digest}, {variance.name})"

/-- The digest of a table, unless the cache is not to be used. A table without a digest is told
first. -/
def CacheAction.begin (action : CacheAction) (blocked : Option Interruption) (t : Table) :
    Except CacheError String := do
  let digest ← t.digest.mapError .table
  match blocked with
  | some why => .error (.interrupted action why)
  | none => .ok digest

/-- The row of a pair; a pair that the checker gives up on has none. -/
def Table.decideRow? (t : Table) (c : Checker) (digest left right : String) (rel : Relation) :
    Option RelationRow :=
  match (c.decide t.graph rel (t.tag? left) (t.tag? right)).result with
  | .ok result => some ⟨digest, c.variance, left, right, rel, result⟩
  | .error _ => none

/-- Both relations of every ordered pair of names. -/
def Table.decideRows (t : Table) (c : Checker) (digest : String) : List RelationRow :=
  t.names.flatMap fun left => t.names.flatMap fun right =>
    [Relation.subtype, Relation.equal].filterMap (t.decideRow? c digest left right)

namespace RelationRow

/-- Whether a row is about the table with this digest under this variance. -/
def belongs (r : RelationRow) (digest : String) (variance : Variance) : Bool :=
  r.digest = digest && r.variance = variance

end RelationRow

namespace RelationCache

def empty : RelationCache := ⟨[]⟩

def find (cache : RelationCache) (digest : String) (variance : Variance) : List RelationRow :=
  cache.rows.filter (·.belongs digest variance)

/-- Replaces all rows of a table under one variance. -/
def replace (cache : RelationCache) (digest : String) (variance : Variance)
    (rows : List RelationRow) : RelationCache :=
  ⟨cache.rows.filter (!·.belongs digest variance) ++ rows⟩

/-- Decides all pairs of a table and keeps the answers; also tells how many there are. -/
def precompute (cache : RelationCache) (blocked : Option Interruption) (t : Table) (c : Checker) :
    Except CacheError (RelationCache × Nat) := do
  let digest ← CacheAction.precompute.begin blocked t
  let rows := t.decideRows c digest
  return (cache.replace digest c.variance rows, rows.length)

def count (cache : RelationCache) (blocked : Option Interruption) (t : Table) (variance : Variance) :
    Except CacheError Nat := do
  let digest ← CacheAction.count.begin blocked t
  return (cache.find digest variance).length

end RelationCache

/-- What is remembered about two types of one table. -/
structure RememberedAnswer where
  rel : Relation
  left : TypeId
  right : TypeId
  result : Bool
  deriving DecidableEq, Repr

def RememberedAnswer.about (a : RememberedAnswer) (rel : Relation) (left right : TypeId) : Bool :=
  a.rel = rel && a.left = left && a.right = right

/-- The answer of a row, if the table still has both names. -/
def Table.remembered? (t : Table) (r : RelationRow) : Option RememberedAnswer := do
  return ⟨r.rel, ← t.tag? r.left, ← t.tag? r.right, r.result⟩

/-- Answers about types, at most one to a question. -/
structure RememberedAnswers where
  answers : List RememberedAnswer
  deriving DecidableEq, Repr

namespace RememberedAnswers

/-- Adds an answer in place of an earlier one to the same question. -/
def insert (known : RememberedAnswers) (a : RememberedAnswer) : RememberedAnswers :=
  ⟨known.answers.filter (!·.about a.rel a.left a.right) ++ [a]⟩

def ofList (answers : List RememberedAnswer) : RememberedAnswers := answers.foldl insert ⟨[]⟩

def size (known : RememberedAnswers) : Nat := known.answers.length

def lookup (known : RememberedAnswers) (rel : Relation) (left right : TypeId) : Option Bool :=
  (known.answers.find? (·.about rel left right)).map (·.result)

/-- The answers as an oracle of a checker. -/
def oracle (known : RememberedAnswers) : Oracle := known.lookup

end RememberedAnswers

/-- The remembered answers about the types of a table. They serve only checkers of the same
variance. -/
def RelationCache.remembered (cache : RelationCache) (blocked : Option Interruption) (t : Table)
    (variance : Variance) : Except CacheError RememberedAnswers := do
  let digest ← CacheAction.oracle.begin blocked t
  let known := RememberedAnswers.ofList ((cache.find digest variance).filterMap t.remembered?)
  if known.size = 0 then .error (.notPrecomputed digest variance) else .ok known

end Gradual
