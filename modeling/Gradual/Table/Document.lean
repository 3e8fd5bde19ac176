import Gradual.Table.Basic
import Gradual.Types.Expr

/-!
Documents, the form in which tables are written by hand. A document pins the ids of some property
names and defines types by name; a type is referred to by its name or described in place. Every name
has its node before any definition is read, so definitions may refer to each other in cycles.
-/
namespace Gradual

mutual

inductive Reference where
  | named (name : String)
  | inline (definition : Definition)

/-- A description of a type. The kind is the name of a primitive type or one of object, function,
method, constructor, array and map; it says which of the parts count. -/
inductive Definition where
  | mk (kind : String) (props : List Member) (recv : Option Reference) (args : List Reference)
      (ret proto elem : Option Reference)

inductive Member where
  | mk (name : String) (type : Reference) (readOnly : Bool)

end

instance : Inhabited Reference := ⟨.named ""⟩
instance : Inhabited Definition := ⟨.mk "" [] none [] none none none⟩
instance : Inhabited Member := ⟨.mk "" default false⟩

structure Document where
  props : List String
  tags : List (String × Option Definition)

abbrev DocumentBuilder := EStateM TableError TypeStore

namespace DocumentBuilder

def add (n : Node) : DocumentBuilder TypeId :=
  modifyGet fun s => let (g, t) := s.graph.add n; (t, { s with graph := g })

def intern (name : String) : DocumentBuilder PropId :=
  modifyGet fun s => let (names, id) := s.names.intern name; (id, { s with names })

end DocumentBuilder

open DocumentBuilder in
mutual

def Reference.build (scope : TypeScope) (place : String) : Reference → DocumentBuilder TypeId
  | .inline d => d.build scope place
  | .named name =>
    match Prim.ofName? name with
    | some p => pure p.typeId
    | none =>
      match scope.lookup name with
      | some t => pure t
      | none => throw (.unknownReference place name)

/-- Builds a type at a place, which messages name. Of a closure the return type is read first, then
the arguments, the receiver and the prototype. -/
def Definition.build (scope : TypeScope) (place : String) : Definition → DocumentBuilder TypeId
  | .mk kind props recv args ret proto elem =>
    match Prim.ofName? kind with
    | some p => pure p.typeId
    | none =>
      match kind with
      | "object" => do
        let props ← buildMembers scope place [] props
        add (.object props)
      | "array" => do
        let t ← buildPart scope (place ++ " elem") elem
        add (.array (some t))
      | "map" => do
        let t ← buildPart scope (place ++ " elem") elem
        add (.map (some t))
      | "function" => do
        let result ← buildPart scope (place ++ " ret") ret
        let given ← buildArguments scope place 0 args
        if recv.isSome ∨ proto.isSome then throw (.functionParts place)
        add (.closure ⟨.function, given, some result, none⟩)
      | "method" => do
        let result ← buildPart scope (place ++ " ret") ret
        let given ← buildArguments scope place 0 args
        let receiver ← buildPart scope (place ++ " recv") recv
        if proto.isSome then throw (.methodParts place)
        add (.closure ⟨.method, some receiver :: given, some result, none⟩)
      | "constructor" => do
        let result ← buildPart scope (place ++ " ret") ret
        let given ← buildArguments scope place 0 args
        let receiver ← buildPart scope (place ++ " recv") recv
        let prototype ← buildPart scope (place ++ " proto") proto
        add (.closure ⟨.constructor, some receiver :: given, some result, some prototype⟩)
      | "" => throw (.missingKind place)
      | kind => throw (.unknownKind place kind)

def buildPart (scope : TypeScope) (place : String) : Option Reference → DocumentBuilder TypeId
  | none => throw (.missingReference place)
  | some r => r.build scope place

def buildArguments (scope : TypeScope) (place : String) (index : Nat) :
    List Reference → DocumentBuilder (List Child)
  | [] => pure []
  | r :: rest => do
    let t ← r.build scope s!"{place} arg {index}"
    let ts ← buildArguments scope place (index + 1) rest
    return some t :: ts

/-- A property gets its id after its type is built. -/
def buildMembers (scope : TypeScope) (place : String) (seen : List String) :
    List Member → DocumentBuilder (List Property)
  | [] => pure []
  | .mk name type readOnly :: rest => do
    if name = "" then throw (.namelessProperty place)
    if name ∈ seen then throw (.duplicateProperty place name)
    let t ← type.build scope (place ++ "." ++ name)
    let id ← intern name
    let ps ← buildMembers scope place (name :: seen) rest
    return ⟨id, some t, readOnly⟩ :: ps

end

namespace Document

/-- The definitions in order of their names. -/
def sorted (d : Document) : List (String × Option Definition) :=
  d.tags.mergeSort fun a b => !(b.1 < a.1)

/-- Reserves a node for each name. -/
def reserve : List (String × Option Definition) → DocumentBuilder TypeScope
  | [] => pure []
  | (name, _) :: rest => do
    if (Prim.ofName? name).isSome then throw (.primitiveName name)
    let t ← DocumentBuilder.add (.odd 0)
    let scope ← reserve rest
    return (name, t) :: scope

/-- Builds each definition and copies it into the node of its name. -/
def fill (scope : TypeScope) : List (String × Option Definition) → DocumentBuilder Unit
  | [] => pure ()
  | (name, definition) :: rest => do
    match definition with
    | none => throw (.emptyDefinition name)
    | some d =>
      let t ← d.build scope name
      match scope.lookup name with
      | none => pure ()
      | some self => modify fun s => { s with graph := s.graph.define self (s.graph.node t) }
    fill scope rest

/-- The table that a document describes. -/
def table (d : Document) : Except TableError Table :=
  if d.tags.isEmpty then .error .noTags
  else
    let build : DocumentBuilder TypeScope := do
      let scope ← reserve d.sorted
      fill scope d.sorted
      return scope
    match build.run (TypeStore.ofNames d.props) with
    | .error e _ => .error e
    | .ok scope s => Table.defineAll ⟨s.names, s.graph, []⟩ scope

end Document

end Gradual
