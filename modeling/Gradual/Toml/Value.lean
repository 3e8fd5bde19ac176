import Gradual.Toml.Lexeme

/-!
TOML values and the tables they are put into. Tables are kept with their keys in the order in which
they came. Two more things are known about the keys of a document while it is read: which tables were
only implied, by a longer key or header, and which keys hold arrays; both may still be defined once
more.
-/
namespace Gradual.Toml

inductive Value where
  | string (s : String)
  | integer (n : Int)
  | float
  | boolean (b : Bool)
  | time
  | array (items : List Value)
  | table (fields : List (String × Value))
  /-- An array of tables, each with a header of its own. -/
  | tables (rows : List (List (String × Value)))

abbrev Fields := List (String × Value)

/-- A key from the top of the document. -/
abbrev Key := List String

def Fields.set (fields : Fields) (name : String) (v : Value) : Fields :=
  if fields.any (·.1 = name) then fields.map fun f => if f.1 = name then (name, v) else f
  else fields ++ [(name, v)]

def changeLast (f : α → Option α) : List α → Option (List α)
  | [] => none
  | [a] => (f a).map ([·])
  | a :: rest => (changeLast f rest).map (a :: ·)

/-- Changes the table at a key. In an array of tables that is the last one; what is no table cannot be
changed. -/
def Fields.changeAt (f : Fields → Option Fields) : Key → Fields → Option Fields
  | [], fields => f fields
  | name :: key, fields =>
    match fields.lookup name with
    | some (.table inner) => do return fields.set name (.table (← changeAt f key inner))
    | some (.tables rows) => do return fields.set name (.tables (← changeLast (changeAt f key) rows))
    | _ => none

/-- The table at a key. -/
def Fields.at? : Key → Fields → Option Fields
  | [], fields => some fields
  | name :: key, fields =>
    match fields.lookup name with
    | some (.table inner) => at? key inner
    | some (.tables rows) => rows.getLast?.bind (at? key)
    | _ => none

/-- A document as far as it has been read. -/
structure Draft where
  fields : Fields
  implied : List Key
  arrays : List Key

namespace Draft

def empty : Draft := ⟨[], [], []⟩

def imply (d : Draft) (key : Key) : Draft := { d with implied := key :: d.implied }

def confirm (d : Draft) (key : Key) : Draft := { d with implied := d.implied.filter (· ≠ key) }

def markArray (d : Draft) (key : Key) : Draft := { d with arrays := key :: d.arrays }

def markOther (d : Draft) (key : Key) : Draft := { d with arrays := d.arrays.filter (· ≠ key) }

/-- The key under which the kind of a value is noted: an empty name adds nothing to its table. -/
def kindKey (context : Key) (name : String) : Key :=
  let key := if name = "" then context else context ++ [name]
  if key.isEmpty then [""] else key

/-- Puts a value under a name in a table. A name that is taken may be used again only for an array,
which is replaced, or for an implied table, which stays. -/
def put (d : Draft) (context : Key) (name : String) (v : Value) : Option Draft := do
  let table ← d.fields.at? context
  let key := context ++ [name]
  let replaced : Option Draft := do
    return { d with fields := ← d.fields.changeAt (fun t => some (t.set name v)) context }
  if (table.lookup name).isNone then replaced
  else if key ∈ d.arrays then return (← replaced).confirm key
  else if key ∈ d.implied then return d.confirm key
  else none

/-- Makes the tables on the way to a key, as implied ones where there are none. -/
def reach (d : Draft) (context : Key) : Key → Option Draft
  | [] => some d
  | name :: rest => do
    let table ← d.fields.at? context
    let d ← match table.lookup name with
      | some (.table _) | some (.tables _) => some d
      | some _ => none
      | none => do
        let fields ← d.fields.changeAt (fun t => some (t.set name (.table []))) context
        some ({ d with fields }.imply (context ++ [name]))
    d.reach (context ++ [name]) rest

/-- Adds a table to an array of tables. -/
def addRow (name : String) (table : Fields) : Option Fields :=
  match table.lookup name with
  | none => some (table.set name (.tables [[]]))
  | some (.tables rows) => some (table.set name (.tables (rows ++ [[]])))
  | some _ => none

/-- Begins the table at a key, or one more table of the array there. -/
def openTable (d : Draft) (key : Key) (array : Bool) : Option Draft := do
  let context := key.dropLast
  let name := key.getLastD ""
  let d ← d.reach [] context
  if array then return { d with fields := ← d.fields.changeAt (addRow name) context }
  else d.put context name (.table [])

/-- Begins the tables that a key with points implies, one in the other. -/
def openImplied (d : Draft) (context : Key) : Key → Option Draft
  | [] => some d
  | name :: rest => do
    let key := context ++ [name]
    let d ← (d.imply key).openTable key false
    d.openImplied key rest

end Draft

end Gradual.Toml
