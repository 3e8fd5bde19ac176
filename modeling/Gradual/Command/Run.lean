import Gradual.Command.Demo
import Gradual.Command.Flags
import Gradual.Manifest.File
import Gradual.Relations.File
import Gradual.Table.File

/-!
The commands. A run reads its flags and a manifest, then does one thing with the table of types, and
ends with a code: 0 for success, 1 for an error or for a relation that does not hold, 2 for a command
line that cannot be understood.
-/
namespace Gradual.Command

open Files

/-- How a run ended and what it wrote. -/
structure Outcome where
  code : Nat
  out : String
  err : String
  deriving DecidableEq, Repr

inductive CommandError where
  | manifest (e : ManifestError)
  | options (e : Complaint)
  | noTable
  | table (e : TableFileError)
  | digest (e : TableError)
  | unknownTag (name : String)
  | unknownCommand (name : String)
  | needsTwoTags (command : String)
  | needsOutput
  | check (left sign right : String) (e : CheckError)
  | cacheDirectory (e : FileError)
  | cacheFile (e : CacheOpenError)
  | cache (e : CacheError)
  deriving DecidableEq, Repr

def CommandError.message : CommandError → String
  | manifest e => e.message
  | options (.unknownVariance text) => Variance.unknownMessage text
  | options e => e.message
  | noTable => "no tag table: pass -table or set [types] table in sjsrt.toml"
  | table e => e.message
  | digest e => e.message
  | unknownTag name => "unknown tag " ++ Text.quoted name
  | unknownCommand name => "unknown command " ++ Text.quoted name
  | needsTwoTags command => command ++ " needs two tag names"
  | needsOutput => "pack needs an output path"
  | check left sign right e => s!"{left} {sign} {right}: {e.message}"
  | cacheDirectory e => "creating cache directory: " ++ e.message
  | cacheFile e => e.message
  | cache e => e.message

/-- How a command ended. -/
inductive Ending where
  | done
  /-- The answer was no. -/
  | refused
  | failed (e : CommandError)
  deriving DecidableEq, Repr

/-- The lines a command printed and how it ended. -/
structure Printed where
  lines : List String
  ending : Ending
  deriving DecidableEq, Repr

def Printed.fail (e : CommandError) : Printed := ⟨[], .failed e⟩

def Printed.outcome (p : Printed) : Outcome :=
  let out := String.join (p.lines.map (· ++ "\n"))
  match p.ending with
  | .done => ⟨0, out, ""⟩
  | .refused => ⟨1, out, ""⟩
  | .failed e => ⟨1, out, "Error: " ++ e.message ++ "\n"⟩

/-- What every command has at hand. -/
structure Setup where
  manifest : Manifest
  tablePath : String
  cachePath : String
  cached : Bool
  /-- Whether verdicts are printed in colour. -/
  colour : Bool

def Setup.ofOptions (m : Manifest) (o : Options) (colour : Bool) : Setup where
  manifest := m
  tablePath := if o.table = "" then m.tablePath else o.table
  cachePath := if o.cache = "" then m.cachePath else o.cache
  cached := o.cached
  colour := colour

def verdict (colour ok : Bool) : String :=
  match colour, ok with
  | true, true => "\x1b[32mtrue\x1b[0m"
  | true, false => "\x1b[31mfalse\x1b[0m"
  | false, true => "true"
  | false, false => "false"

variable {m : Type → Type} [Monad m] [Codec]

def loadTable (disk : Disk m) (s : Setup) : m (Except CommandError Table) := do
  if s.tablePath = "" then return .error .noTable
  return (← Table.load disk s.tablePath).mapError .table

/-- The checker of a manifest, with an oracle. -/
def checkerWith (s : Setup) (oracle : Oracle) : Except CommandError Checker := do
  let limits ← s.manifest.checkedLimits.mapError .options
  return ⟨limits.subtypeDepth, limits.variance, oracle⟩

/-- What the cache remembers about a table; a table that was not precomputed has a silent oracle. -/
def rememberedOracle (cache : RelationCache) (t : Table) (variance : Variance) :
    Except CommandError Oracle :=
  match cache.remembered none t variance with
  | .ok known => .ok known.oracle
  | .error (.notPrecomputed _ _) => .ok Oracle.silent
  | .error e => .error (.cache e)

/-- The checker for a table, which asks the cache first if it may. -/
def checkerFor (disk : Disk m) (s : Setup) (t : Table) : m (Except CommandError Checker) := do
  match checkerWith s Oracle.silent with
  | .error e => return .error e
  | .ok c =>
    if !s.cached then return .ok c
    match ← RelationCache.openAt disk s.cachePath with
    | .error e => return .error (.cacheFile e)
    | .ok cache => return (rememberedOracle cache t c.variance).map fun oracle => { c with oracle }

def sign : Relation → String
  | .subtype => "<:"
  | .equal => "="

/-- Decides a relation of two named types. -/
def relateTypes (colour : Bool) (t : Table) (c : Checker) (rel : Relation) (left right : String)
    (a b : TypeId) : Printed :=
  match (c.decide t.graph rel (some a) (some b)).result with
  | .error e => .fail (.check left (sign rel) right e)
  | .ok answer =>
    ⟨[s!"{left} {sign rel} {right}: {verdict colour answer}"], if answer then .done else .refused⟩

/-- Both types of a relation. -/
def namedPair (t : Table) (left right : String) : Except CommandError (TypeId × TypeId) :=
  match t.tag? left, t.tag? right with
  | some a, some b => .ok (a, b)
  | none, _ => .error (.unknownTag left)
  | _, none => .error (.unknownTag right)

def relate (disk : Disk m) (s : Setup) (command : String) (rel : Relation) :
    List String → m Printed
  | [left, right] => do
    match ← loadTable disk s with
    | .error e => return .fail e
    | .ok t =>
      match namedPair t left right with
      | .error e => return .fail e
      | .ok (a, b) =>
        match ← checkerFor disk s t with
        | .error e => return .fail e
        | .ok c => return relateTypes s.colour t c rel left right a b
  | _ => return .fail (.needsTwoTags command)

/-- The lines of named types, up to the first name that is unknown. -/
def tagLines (t : Table) : List String → Printed
  | [] => ⟨[], .done⟩
  | name :: rest =>
    match t.tag? name with
    | none => .fail (.unknownTag name)
    | some type =>
      let more := tagLines t rest
      ⟨s!"{name} = {t.print type}" :: more.lines, more.ending⟩

def dump (disk : Disk m) (s : Setup) (names : List String) : m Printed := do
  match ← loadTable disk s with
  | .error e => return .fail e
  | .ok t =>
    match t.digest with
    | .error e => return .fail (.digest e)
    | .ok digest =>
      let head := [s!"# {Path.base s.tablePath}", s!"# digest {digest}",
        s!"# {t.props.size} properties, {t.size} tags"]
      let tags := tagLines t (if names.isEmpty then t.names else names)
      return ⟨head ++ tags.lines, tags.ending⟩

def pack (disk : Disk m) (s : Setup) : List String → m Printed
  | [path] => do
    match ← loadTable disk s with
    | .error e => return .fail e
    | .ok t =>
      match ← t.save disk path, t.digest with
      | .error e, _ => return .fail (.table e)
      | _, .error e => return .fail (.digest e)
      | .ok (), .ok digest =>
        return ⟨[s!"wrote {path} ({t.size} tags, digest {digest.take 12})"], .done⟩
  | _ => return .fail .needsOutput

/-- Makes the directory of the cache, unless it is the one we are in. -/
def makeCacheDirectory (disk : Disk m) (path : String) : m (Except CommandError Unit) := do
  let directory := Path.parent path
  if directory = "." then return .ok ()
  return (← disk.makeDirectories directory).mapError .cacheDirectory

/-- Decides all pairs of a table and keeps them in an open cache. -/
def fillCache (disk : Disk m) (s : Setup) (t : Table) (cache : RelationCache) : m Printed := do
  match checkerWith s Oracle.silent with
  | .error e => return .fail e
  | .ok c =>
    match cache.precompute none t c with
    | .error e => return .fail (.cache e)
    | .ok (cache, n) =>
      match ← cache.save disk s.cachePath with
      | .error e => return .fail (.cacheFile e)
      | .ok () => return ⟨[s!"stored {n} relations for {t.size} tags in {s.cachePath}"], .done⟩

def precompute (disk : Disk m) (s : Setup) : m Printed := do
  match ← loadTable disk s with
  | .error e => return .fail e
  | .ok t =>
    match ← makeCacheDirectory disk s.cachePath with
    | .error e => return .fail e
    | .ok () =>
      match ← RelationCache.openAt disk s.cachePath with
      | .error e => return .fail (.cacheFile e)
      | .ok cache => fillCache disk s t cache

/-- The demonstration under the limits of the manifest. -/
def runDemo (s : Setup) (session : String) : Except Fault Printed :=
  match s.manifest.checkedLimits with
  | .error e => .ok (.fail (.options e))
  | .ok limits => (demo limits session).map fun lines => ⟨lines, .done⟩

def dispatch (disk : Disk m) (s : Setup) (session command : String) (args : List String) :
    m (Except Fault Printed) := do
  match command with
  | "check" => return .ok (← relate disk s command .subtype args)
  | "eq" => return .ok (← relate disk s command .equal args)
  | "dump" => return .ok (← dump disk s args)
  | "pack" => return .ok (← pack disk s args)
  | "precompute" => return .ok (← precompute disk s)
  | "demo" => return runDemo s session
  | _ => return .ok (.fail (.unknownCommand command))

/-- The manifest of a given directory, else the nearest one, else the default. -/
def loadManifest (disk : Disk m) (directory : String) : m (Except ManifestError Manifest) := do
  if directory ≠ "" then Manifest.load disk directory
  else return (← Manifest.find disk ".").map (·.getD Manifest.default)

/-- Makes the log file if there is to be one. Nothing is written to it here. -/
def prepareLog (disk : Disk m) (manifest : Manifest) (verbose : Bool) : m Unit := do
  match manifest.logPath? with
  | none => return
  | some path =>
    if manifest.verbosity ≤ -4 && !verbose then return
    if !(← disk.has path) then discard (disk.write path [])

/-- A run of the program. A fault of the demonstration ends it without an outcome. -/
def run (disk : Disk m) (colour : Bool) (session : String) (args : List String) :
    m (Except Fault Outcome) := do
  match parseFlags args Options.unset with
  | .error e => return .ok ⟨2, "", (e.message?.map (· ++ "\n")).getD "" ++ usage⟩
  | .ok (_, []) => return .ok ⟨2, "", usage⟩
  | .ok (o, command :: rest) =>
    match ← loadManifest disk o.config with
    | .error e => return .ok (Printed.fail (.manifest e)).outcome
    | .ok manifest =>
      prepareLog disk manifest o.verbose
      let printed ← dispatch disk (Setup.ofOptions manifest o colour) session command rest
      return printed.map Printed.outcome

end Gradual.Command
