import Gradual.Digest
import Gradual.Table.Basic
import Gradual.Text.Hex

/-!
The compiled form of a table. Types are flattened into a list of nodes that refer to each other by
position, numbered depth first from the names in order, with each primitive type as one node. The
form depends on the shape of a table only, and the SHA-256 of its bytes identifies the table. How it is
written as bytes is left to a codec.
-/
namespace Gradual

structure CompiledProperty where
  id : Nat
  type : Int
  readOnly : Bool
  deriving DecidableEq, Repr

/-- A reference that is left out is -1. -/
structure CompiledNode where
  kind : Nat
  code : Nat
  args : List Int
  ret : Int
  proto : Int
  props : List CompiledProperty
  elem : Int
  deriving DecidableEq, Repr

structure CompiledName where
  name : String
  node : Int
  deriving DecidableEq, Repr

structure CompiledTable where
  version : Nat
  props : List String
  names : List CompiledName
  nodes : List CompiledNode
  deriving DecidableEq, Repr

/-- How compiled tables are written as bytes and read back. -/
class Codec where
  write : CompiledTable → Bytes
  read? : Bytes → Option CompiledTable

/-- The types a node refers to in the order in which they are numbered, unless one that it needs is
missing. Seven is the kind of closures, whose signature cannot be left out. -/
def Node.parts? : Node → Option (List TypeId)
  | .closure s => do
    let args ← s.args.mapM id
    let ret ← s.ret
    return args ++ ret :: s.proto.toList
  | .object ps => ps.mapM (·.type)
  | .array e | .map e => do return [← e]
  | .odd 7 => none
  | .odd _ | .prim _ => some []

/-- The node that stands for a type: the shared one if it is primitive. -/
def Graph.shared (g : Graph) (t : TypeId) : TypeId :=
  match g.node t with
  | .prim p => p.typeId
  | _ => t

/-- Depth-first numbering: every type reachable from the pending ones is put after those that have
a number already, a type before its parts. -/
def Graph.number (g : Graph) : Nat → List TypeId → List TypeId → Option (List TypeId)
  | _, [], order => some order
  | 0, _, _ => none
  | fuel + 1, t :: pending, order =>
    if t ∈ order then g.number fuel pending order
    else do
      let parts ← (g.node t).parts?
      g.number fuel (parts.map g.shared ++ pending) (order ++ [t])

/-- The numbering from some roots. A type's parts are pending once, so the edges bound it. -/
def Graph.numbering (g : Graph) (roots : List TypeId) : Option (List TypeId) :=
  g.number (roots.length + g.edgeCount) roots []

/-- Positions in a numbering. -/
def Graph.position (g : Graph) (order : List TypeId) (t : TypeId) : Int := order.idxOf (g.shared t)

def Graph.positionOf (g : Graph) (order : List TypeId) : Child → Int
  | none => -1
  | some t => g.position order t

def CompiledNode.ofNode (position : Child → Int) (n : Node) : CompiledNode :=
  let bare : CompiledNode := ⟨n.kindCode, 0, [], -1, -1, [], -1⟩
  match n with
  | .closure s =>
    { bare with
      code := s.code.code, args := s.args.map position, ret := position s.ret
      proto := position s.proto }
  | .object ps => { bare with props := ps.map fun p => ⟨p.id, position p.type, p.readOnly⟩ }
  | .array e | .map e => { bare with elem := position e }
  | .odd _ | .prim _ => bare

namespace Table

def roots (t : Table) : List TypeId := t.tags.map fun (_, type) => t.graph.shared type

/-- The compiled form with a given numbering. -/
def compiledBy (t : Table) (order : List TypeId) : CompiledTable :=
  let g := t.graph
  { version := compiledVersion
    props := t.props.toList
    names := t.tags.map fun (name, type) => ⟨name, g.position order type⟩
    nodes := order.map fun type => CompiledNode.ofNode (g.positionOf order) (g.node type) }

/-- The compiled form. Every property id must be numbered by the table. -/
def compile (t : Table) : Except TableError CompiledTable :=
  match t.graph.numbering t.roots with
  | none => .error .incomplete
  | some order =>
    let w := t.compiledBy order
    match (w.nodes.flatMap (·.props)).find? fun p => t.props.size ≤ p.id with
    | some p => .error (.foreignProperty p.id)
    | none => .ok w

def encode [Codec] (t : Table) : Except TableError Bytes := t.compile.map Codec.write

/-- The digest that identifies a table, in hexadecimal. -/
def digest [Codec] (t : Table) : Except TableError String :=
  t.encode.map fun data => Text.hexBytes (Digest.sha256 data)

end Table

/-- The type of the node at a position: the shared one if it is primitive, else a node of its
own. -/
def CompiledNode.typeId (n : CompiledNode) (position : Nat) : TypeId :=
  match Prim.ofCode? n.kind with
  | some p => p.typeId
  | none => Graph.primitives.size + position

namespace CompiledTable

/-- Every node is of a kind that types have. -/
def checkKinds : Nat → List CompiledNode → Except TableError Unit
  | _, [] => .ok ()
  | i, n :: rest =>
    if (Prim.ofCode? n.kind).isSome ∨ (7 ≤ n.kind ∧ n.kind ≤ 10) then checkKinds (i + 1) rest
    else .error (.badKind i n.kind)

/-- The type at a position that a node or a name refers to. -/
def resolve (w : CompiledTable) (source : Int) (role : String) (target : Int) :
    Except TableError TypeId :=
  if target < 0 then .error (.badReference source role target)
  else match w.nodes[target.toNat]? with
    | some n => .ok (n.typeId target.toNat)
    | none => .error (.badReference source role target)

def linkArgs (w : CompiledTable) (i : Nat) : List Int → Except TableError (List Child)
  | [] => .ok []
  | a :: rest => do
    let t ← w.resolve i "argument" a
    let ts ← w.linkArgs i rest
    return some t :: ts

/-- A closure has a known code, and a receiver unless it is a function; only a constructor has a
prototype. -/
def linkClosure (w : CompiledTable) (i : Nat) (n : CompiledNode) : Except TableError Node := do
  let code := CodeKind.ofCode n.code
  if code = .other n.code then throw (.badCode i n.code)
  let args ← w.linkArgs i n.args
  let ret ← w.resolve i "return" n.ret
  let proto ← if code = .constructor then some <$> w.resolve i "prototype" n.proto else pure none
  if code ≠ .function ∧ args = [] then throw (.missingReceiver i code)
  return .closure ⟨code, args, some ret, proto⟩

/-- Properties have distinct ids, all of them numbered. -/
def linkProperties (w : CompiledTable) (i : Nat) (seen : List PropId) :
    List CompiledProperty → Except TableError (List Property)
  | [] => .ok []
  | p :: rest => do
    if w.props.length ≤ p.id ∨ p.id ∈ seen then throw (.badProperty i p.id)
    let t ← w.resolve i "property" p.type
    let ps ← w.linkProperties i (p.id :: seen) rest
    return ⟨p.id, some t, p.readOnly⟩ :: ps

def linkNode (w : CompiledTable) (i : Nat) (n : CompiledNode) : Except TableError Node :=
  match Prim.ofCode? n.kind with
  | some p => .ok (.prim p)
  | none =>
    match n.kind with
    | 7 => w.linkClosure i n
    | 8 => .object <$> w.linkProperties i [] n.props
    | 9 => do return .array (some (← w.resolve i "element" n.elem))
    | 10 => do return .map (some (← w.resolve i "element" n.elem))
    | kind => .ok (.odd kind)

def linkNodes (w : CompiledTable) : Nat → List CompiledNode → Except TableError (List Node)
  | _, [] => .ok []
  | i, n :: rest => do
    let node ← w.linkNode i n
    let nodes ← w.linkNodes (i + 1) rest
    return node :: nodes

def linkNames (w : CompiledTable) (t : Table) : List CompiledName → Except TableError Table
  | [] => .ok t
  | n :: rest => do
    let type ← w.resolve (-1) ("name " ++ n.name) n.node
    let t ← t.define n.name (some type)
    w.linkNames t rest

/-- The table of a compiled form, every reference checked. -/
def link (w : CompiledTable) : Except TableError Table := do
  if w.version ≠ Table.compiledVersion then throw (.version w.version)
  checkKinds 0 w.nodes
  let props := NameTable.ofList w.props
  if props.size ≠ w.props.length then throw .duplicateNames
  let nodes ← w.linkNodes 0 w.nodes
  w.linkNames ⟨props, ⟨Graph.primitives.nodes ++ nodes.toArray⟩, []⟩ w.names

end CompiledTable

/-- Reads a compiled table. -/
def Table.decode [Codec] (data : Bytes) : Except TableReadError Table :=
  match Codec.read? data with
  | none => .error .cbor
  | some w => w.link.mapError .table

end Gradual
