import Gradual.Files.Path
import Gradual.Machine.Basic

/-!
The manifest of a project: the limits of its machines and where its files are. A manifest holds what
was written, sensible or not; `complaints` tells what is wrong with it.
-/
namespace Gradual

open Files

structure Manifest where
  project : String
  conversionSlots : Int
  coerceDepth : Int
  subtypeDepth : Int
  argStack : Int
  variance : String
  /-- Where the table of types is. -/
  table : String
  verbosity : Int
  logFile : String
  /-- Where the cache of relations is. -/
  cache : String
  /-- The directory that relative paths start from; empty if there is none. -/
  directory : String
  deriving DecidableEq, Repr

inductive Complaint where
  | negative (limit : String) (n : Int)
  | unknownVariance (text : String)
  | verbosity (n : Int)
  deriving DecidableEq, Repr

def Complaint.message : Complaint → String
  | negative limit n => s!"runtime.{limit} must not be negative (got {n})"
  | unknownVariance text => "runtime.arg-variance: " ++ Variance.unknownMessage text
  | verbosity n => s!"log.verbosity must be -4..2 (got {n})"

namespace Manifest

/-- The name of a manifest in its directory. -/
def fileName : String := "sjsrt.toml"

/-- The manifest of a project that has none. -/
def default : Manifest where
  project := ""
  conversionSlots := Limits.default.conversionSlots
  coerceDepth := Limits.default.coerceDepth
  subtypeDepth := Limits.default.subtypeDepth
  argStack := Limits.default.argStack
  variance := Limits.default.variance.name
  table := ""
  verbosity := 0
  logFile := ""
  cache := Path.join [".sjsrt", "relations.db"]
  directory := ""

/-- The limits by their names. -/
def namedLimits (m : Manifest) : List (String × Int) :=
  [("conversion-slots", m.conversionSlots), ("coerce-depth", m.coerceDepth),
    ("subtype-depth", m.subtypeDepth), ("arg-stack", m.argStack)]

/-- Log messages have levels from -4, nothing, to 2, everything. -/
def complaints (m : Manifest) : List Complaint :=
  (m.namedLimits.filter (·.2 < 0)).map (fun (limit, n) => .negative limit n)
    ++ (if (Variance.ofName? m.variance).isNone then [.unknownVariance m.variance] else [])
    ++ (if m.verbosity < -4 ∨ 2 < m.verbosity then [.verbosity m.verbosity] else [])

def isValid (m : Manifest) : Bool := m.complaints.isEmpty

/-- Limits that are not positive, and a variance that is unknown, take their defaults. -/
def limits (m : Manifest) : Limits :=
  Limits.normalize m.conversionSlots m.coerceDepth m.subtypeDepth m.argStack
    ((Variance.ofName? m.variance).getD Limits.default.variance)

/-- The limits, if the variance is one. -/
def checkedLimits (m : Manifest) : Except Complaint Limits :=
  if (Variance.ofName? m.variance).isSome then .ok m.limits
  else .error (.unknownVariance m.variance)

/-- A path as seen from the manifest's directory. -/
def resolve (m : Manifest) (path : String) : String :=
  if path = "" ∨ Path.isAbsolute path ∨ m.directory = "" then path
  else Path.join [m.directory, path]

def tablePath (m : Manifest) : String := m.resolve m.table

def cachePath (m : Manifest) : String := m.resolve m.cache

def logPath? (m : Manifest) : Option String :=
  if m.logFile = "" then none else some (m.resolve m.logFile)

end Manifest

end Gradual
