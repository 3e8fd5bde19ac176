import Gradual.Types.Graph

/-!
Type expressions and the graph they denote. Building an expression adds a fresh node for each inline
form, reuses the node of a name, and interns property names as it meets them. A failing expression
leaves the names and nodes it had added.
-/
namespace Gradual

/-- A property is given by its name or by its id. -/
inductive PropRef where
  | name (text : String)
  | id (id : PropId)
  deriving DecidableEq, Repr

/-- One level of wrapping in a `nest`. -/
inductive NestLayer where
  | array | map
  | object (prop : PropRef)
  | ret | arg
  deriving DecidableEq, Repr

mutual

inductive TypeExpr where
  | missing
  /-- A primitive type or the node of that name. -/
  | named (name : String)
  /-- A primitive node of its own. -/
  | fresh (p : Prim)
  | function (ret : TypeExpr) (args : List TypeExpr)
  | method (recv ret : TypeExpr) (args : List TypeExpr)
  | constructor (proto recv ret : TypeExpr) (args : List TypeExpr)
  | object (props : List PropExpr)
  | array (elem : TypeExpr)
  | map (elem : TypeExpr)
  /-- A recursive type: inside the body the name stands for the type itself. -/
  | fix (self : String) (body : TypeExpr)
  | nest (layer : NestLayer) (base : TypeExpr) (count : Nat)
  /-- A node of any kind number, with nothing checked. -/
  | rawNode (kind : Nat) (props : List PropExpr) (elem : TypeExpr)
  /-- A closure node with nothing checked. -/
  | rawClosure (code : Nat) (args : List TypeExpr) (ret proto : TypeExpr)

inductive PropExpr where
  | mk (prop : PropRef) (type : TypeExpr) (readOnly : Bool)

end

instance : Inhabited TypeExpr := ⟨.missing⟩

/-- The names a type expression can refer to. -/
abbrev TypeScope := List (String × TypeId)

structure TypeStore where
  graph : Graph
  names : NameTable
  deriving DecidableEq, Repr

def TypeStore.ofNames (names : List String) : TypeStore := ⟨Graph.primitives, NameTable.ofList names⟩

abbrev TypeBuilder := EStateM TypeError TypeStore

namespace TypeBuilder

def add (n : Node) : TypeBuilder TypeId :=
  modifyGet fun s => let (g, t) := s.graph.add n; (t, { s with graph := g })

def resolve : PropRef → TypeBuilder PropId
  | .id id => pure id
  | .name text => modifyGet fun s => let (names, id) := s.names.intern text; (id, { s with names })

def closure (sig : Signature) : TypeBuilder TypeId :=
  match sig.check with
  | .error e => throw e
  | .ok () => add (.closure sig)

/-- Properties must have distinct ids. -/
def object (props : List Property) : TypeBuilder TypeId :=
  match Property.duplicate? props [] with
  | some id => throw (.duplicateProperty id)
  | none => add (.object props)

def function (ret : Child) (args : List Child) : TypeBuilder TypeId :=
  closure ⟨.function, args, ret, none⟩

def method (recv ret : Child) (args : List Child) : TypeBuilder TypeId :=
  closure ⟨.method, recv :: args, ret, none⟩

def constructor (proto recv ret : Child) (args : List Child) : TypeBuilder TypeId :=
  if proto.isNone then throw .missingPrototype
  else closure ⟨.constructor, recv :: args, ret, proto⟩

/-- Closes a recursive type: its node takes over the body, which must be another node. -/
def tie (self : TypeId) (body : Child) : TypeBuilder TypeId :=
  match body with
  | none => throw .unfinishedFix
  | some t =>
    if t = self then throw .unfinishedFix
    else modifyGet fun s => (self, { s with graph := s.graph.define self (s.graph.node t) })

def wrap (layer : NestLayer) (t : Child) : TypeBuilder TypeId :=
  match layer with
  | .array => add (.array t)
  | .map => add (.map t)
  | .object prop => do
    let id ← resolve prop
    object [⟨id, t, false⟩]
  | .ret => function t []
  | .arg => function (some Prim.void.typeId) [t]

def wrapTimes (layer : NestLayer) : Nat → Child → TypeBuilder Child
  | 0, t => pure t
  | n + 1, t => do
    let wrapped ← wrap layer t
    wrapTimes layer n (some wrapped)

end TypeBuilder

/-- A node from a kind number and unchecked parts. -/
def Node.raw (kind : Nat) (props : List Property) (elem : Child) : Node :=
  match Prim.ofCode? kind with
  | some p => .prim p
  | none =>
    match kind with
    | 8 => .object props
    | 9 => .array elem
    | 10 => .map elem
    | n => .odd n

open TypeBuilder in
mutual

/-- Builds an expression. Parts are built in the order prototype, receiver, return, arguments. -/
def TypeExpr.build (scope : TypeScope) : TypeExpr → TypeBuilder Child
  | .missing => pure none
  | .named name =>
    match Prim.ofName? name with
    | some p => pure (some p.typeId)
    | none =>
      match scope.lookup name with
      | some t => pure (some t)
      | none => throw (.unknownName name)
  | .fresh p => do return some (← add (.prim p))
  | .function ret args => do
    let ret ← ret.build scope
    let args ← buildTypes scope args
    return some (← function ret args)
  | .method recv ret args => do
    let recv ← recv.build scope
    let ret ← ret.build scope
    let args ← buildTypes scope args
    return some (← method recv ret args)
  | .constructor proto recv ret args => do
    let proto ← proto.build scope
    let recv ← recv.build scope
    let ret ← ret.build scope
    let args ← buildTypes scope args
    return some (← constructor proto recv ret args)
  | .object props => do
    let props ← buildProps scope props
    return some (← object props)
  | .array elem => do
    let elem ← elem.build scope
    return some (← add (.array elem))
  | .map elem => do
    let elem ← elem.build scope
    return some (← add (.map elem))
  | .fix self body => do
    let t ← add (.odd 0)
    let body ← body.build ((self, t) :: scope)
    return some (← tie t body)
  | .nest layer base count => do
    let base ← base.build scope
    wrapTimes layer count base
  | .rawNode kind props elem => do
    let props ← buildProps scope props
    let elem ← elem.build scope
    return some (← add (Node.raw kind props elem))
  | .rawClosure code args ret proto => do
    let args ← buildTypes scope args
    let ret ← ret.build scope
    let proto ← proto.build scope
    return some (← add (.closure ⟨CodeKind.ofCode code, args, ret, proto⟩))

def buildTypes (scope : TypeScope) : List TypeExpr → TypeBuilder (List Child)
  | [] => pure []
  | e :: rest => do
    let t ← e.build scope
    let ts ← buildTypes scope rest
    return t :: ts

/-- The property is resolved before its type is built. -/
def buildProps (scope : TypeScope) : List PropExpr → TypeBuilder (List Property)
  | [] => pure []
  | .mk prop type readOnly :: rest => do
    let id ← resolve prop
    let t ← type.build scope
    let ps ← buildProps scope rest
    return ⟨id, t, readOnly⟩ :: ps

end

/-- Reserves a node for each name. -/
def TypeScope.reserve : List (String × TypeExpr) → TypeScope → TypeBuilder TypeScope
  | [], scope => pure scope
  | (name, _) :: rest, scope => do
    let t ← TypeBuilder.add (.odd 0)
    reserve rest ((name, t) :: scope)

/-- Builds the definitions in order, each copied into the node of its name. -/
def TypeScope.fill (scope : TypeScope) : List (String × TypeExpr) → TypeBuilder Unit
  | [] => pure ()
  | (name, e) :: rest => do
    let built ← e.build scope
    match scope.lookup name, built with
    | some self, some t => modify fun s => { s with graph := s.graph.define self (s.graph.node t) }
    | _, _ => throw .unfinishedFix
    fill scope rest

/-- The scope of a list of definitions, which may refer to each other. -/
def TypeScope.ofDefinitions (defs : List (String × TypeExpr)) : TypeBuilder TypeScope := do
  let scope ← TypeScope.reserve defs []
  scope.fill defs
  return scope

end Gradual
