import Gradual.Text.Quoted
import Gradual.Types.Checker
import Gradual.Types.Printer

/-!
Tables of named types. A table numbers the property names of a program and names some of its types;
the named types may refer to each other and to themselves. Names are kept in order, so a table does
not depend on the order in which its types were named.
-/
namespace Gradual

inductive TableError where
  | emptyName
  | primitiveName (name : String)
  | definedTwice (name : String)
  | missingType (name : String)
  /-- A property of a named type has an id that the table does not number. -/
  | foreignProperty (id : PropId)
  /-- A named type lacks a part, so it has no compiled form. -/
  | incomplete
  | version (found : Nat)
  | badKind (node kind : Nat)
  | duplicateNames
  | badCode (node code : Nat)
  /-- A node, or a name, refers to a node that is not there. -/
  | badReference (node : Int) (role : String) (target : Int)
  | missingReceiver (node : Nat) (code : CodeKind)
  | badProperty (node id : Nat)
  | noTags
  | emptyDefinition (name : String)
  | namelessProperty (place : String)
  | duplicateProperty (place name : String)
  | missingKind (place : String)
  | unknownKind (place kind : String)
  | missingReference (place : String)
  | unknownReference (place name : String)
  | functionParts (place : String)
  | methodParts (place : String)
  deriving DecidableEq, Repr

/-- The version of the compiled form. -/
def Table.compiledVersion : Nat := 1

def TableError.message : TableError → String
  | emptyName => "tagfile: empty tag name"
  | primitiveName name => "tagfile: " ++ Text.quoted name ++ " is a primitive type name"
  | definedTwice name => "tagfile: tag " ++ Text.quoted name ++ " defined twice"
  | missingType name => "tagfile: tag " ++ Text.quoted name ++ " is nil"
  | foreignProperty id => s!"tagfile: property id {id} outside the table"
  | incomplete => "tagfile: incomplete tag"
  | version found =>
    s!"tagfile: compiled table version {found}, want {Table.compiledVersion}"
  | badKind node kind => s!"tagfile: node {node}: bad kind {kind}"
  | duplicateNames => "tagfile: duplicate property names"
  | badCode node code => s!"tagfile: node {node}: bad code {code}"
  | badReference node role target => s!"tagfile: node {node}: {role} refers to node {target}"
  | missingReceiver node code => s!"tagfile: node {node}: {code.name} without receiver"
  | badProperty node id => s!"tagfile: node {node}: bad property id {id}"
  | noTags => "tagfile: document defines no tags"
  | emptyDefinition name => "tagfile: tag " ++ Text.quoted name ++ ": empty definition"
  | namelessProperty place => s!"tagfile: {place}: property without name"
  | duplicateProperty place name =>
    s!"tagfile: {place}: duplicate property " ++ Text.quoted name
  | missingKind place => s!"tagfile: {place}: missing kind"
  | unknownKind place kind => s!"tagfile: {place}: unknown kind " ++ Text.quoted kind
  | missingReference place => s!"tagfile: {place}: missing type"
  | unknownReference place name => s!"tagfile: {place}: unknown type " ++ Text.quoted name
  | functionParts place => s!"tagfile: {place}: functions take no recv or proto"
  | methodParts place => s!"tagfile: {place}: methods take no proto"

/-- Why a text or a byte string holds no table. -/
inductive TableReadError where
  /-- The text is no YAML, or not of the shape of a document. -/
  | yaml
  /-- The bytes are no CBOR, or not of the shape of a compiled table. -/
  | cbor
  | table (e : TableError)
  deriving DecidableEq, Repr

structure Table where
  props : NameTable
  graph : Graph
  /-- The named types in order of their names. -/
  tags : List (String × TypeId)
  deriving DecidableEq, Repr

namespace Table

def ofNames (props : List String) : Table := ⟨NameTable.ofList props, Graph.primitives, []⟩

def intern (t : Table) (name : String) : Table × PropId :=
  let (props, id) := t.props.intern name
  ({ t with props }, id)

/-- The defined names in order. -/
def names (t : Table) : List String := t.tags.map Prod.fst

def size (t : Table) : Nat := t.tags.length

/-- Primitive names stand for the shared primitive types. -/
def tag? (t : Table) (name : String) : Option TypeId :=
  match Prim.ofName? name with
  | some p => some p.typeId
  | none => t.tags.lookup name

/-- Puts a name before the first that is greater. -/
def insertTag (name : String) (type : TypeId) : List (String × TypeId) → List (String × TypeId)
  | [] => [(name, type)]
  | (other, u) :: rest =>
    if name < other then (name, type) :: (other, u) :: rest
    else (other, u) :: insertTag name type rest

/-- Names a type. Names are unique and do not shadow a primitive type. -/
def define (t : Table) (name : String) (type : Child) : Except TableError Table :=
  if name = "" then .error .emptyName
  else if (Prim.ofName? name).isSome then .error (.primitiveName name)
  else if (t.tags.lookup name).isSome then .error (.definedTwice name)
  else match type with
    | none => .error (.missingType name)
    | some type => .ok { t with tags := insertTag name type t.tags }

/-- Names several types in turn. -/
def defineAll (t : Table) : List (String × TypeId) → Except TableError Table
  | [] => .ok t
  | (name, type) :: rest => do
    let t ← t.define name (some type)
    t.defineAll rest

/-- The text of a type with the table's property names. -/
def print (t : Table) (type : TypeId) : String := t.graph.print t.props.name (some type)

/-- Each name with the text of its type. -/
def printed (t : Table) : List (String × String) := t.tags.map fun (name, type) => (name, t.print type)

end Table

end Gradual
