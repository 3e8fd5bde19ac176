import Gradual.Property.Names

/-!
Type graphs. A type is a node of a graph and may refer to itself through its properties, arguments
or elements. Nodes are addressed by their position, so two types of the same shape can still be told
apart; the relations on types look at the shape only. The six primitive types are shared nodes at
the front of every graph.
-/
namespace Gradual

abbrev TypeId := Nat

/-- A reference from one type to another, which may be left out. -/
abbrev Child := Option TypeId

inductive Prim where
  | int | float | bool | string | void | top
  deriving DecidableEq, Repr

namespace Prim

def name : Prim → String
  | int => "int"
  | float => "float"
  | bool => "bool"
  | string => "string"
  | void => "void"
  | top => "top"

/-- The shared node of a primitive type. -/
def typeId : Prim → TypeId
  | int => 0
  | float => 1
  | bool => 2
  | string => 3
  | void => 4
  | top => 5

/-- Primitive kinds are numbered from one. -/
def code (p : Prim) : Nat := p.typeId + 1

def ofCode? : Nat → Option Prim
  | 1 => some int
  | 2 => some float
  | 3 => some bool
  | 4 => some string
  | 5 => some void
  | 6 => some top
  | _ => none

def ofName? (name : String) : Option Prim :=
  [int, float, bool, string, void, top].find? (·.name = name)

end Prim

/-- The convention a closure follows; numbers that stand for none are kept as they are. -/
inductive CodeKind where
  | function | method | constructor
  | other (code : Nat)
  deriving DecidableEq, Repr

namespace CodeKind

def ofCode : Nat → CodeKind
  | 1 => function
  | 2 => method
  | 3 => constructor
  | n => other n

def code : CodeKind → Nat
  | function => 1
  | method => 2
  | constructor => 3
  | other n => n

def name : CodeKind → String
  | function => "fn"
  | method => "method"
  | constructor => "ctor"
  | other n => s!"code({n})"

end CodeKind

structure Property where
  id : PropId
  type : Child
  readOnly : Bool
  deriving DecidableEq, Repr

/-- The first argument of anything but a function is its receiver. -/
structure Signature where
  code : CodeKind
  args : List Child
  ret : Child
  proto : Child
  deriving DecidableEq, Repr

inductive Node where
  /-- A kind number that stands for no type; a node that is not defined yet has number zero. -/
  | odd (code : Nat)
  | prim (p : Prim)
  | closure (sig : Signature)
  | object (props : List Property)
  | array (elem : Child)
  | map (elem : Child)
  deriving DecidableEq, Repr

inductive TypeError where
  | missingPrototype
  | missingReturn
  | missingArgument (index : Nat)
  | duplicateProperty (id : PropId)
  | unfinishedFix
  | notClosure
  | unknownName (name : String)
  | argumentRange
  deriving DecidableEq, Repr

def TypeError.message : TypeError → String
  | missingPrototype => "types.NewConstructor: nil prototype type"
  | missingReturn => "types: closure signature without return type"
  | missingArgument i => s!"types: closure argument {i} has nil type"
  | duplicateProperty id => s!"types.NewObject: duplicate property id {id}"
  | unfinishedFix => "types.Fix: body must return a fresh tag"
  | notClosure => "types.Tag.ExplicitArgs: not a closure type"
  | unknownName name => "unknown type name " ++ name
  | argumentRange => "argument index out of range"

namespace Signature

def isFunction (s : Signature) : Bool := s.code = .function

/-- Arguments after the receiver. A signature that lacks its receiver counts one too few. -/
def explicitCount (s : Signature) : Int :=
  if s.isFunction then s.args.length else (s.args.length : Int) - 1

def explicit (s : Signature) : List Child := if s.isFunction then s.args else s.args.drop 1

/-- The type of the receiver, missing for functions. -/
def receiver (s : Signature) : Child :=
  if s.isFunction then none else s.args.head?.join

/-- Whether the parts that every closure type needs are there. -/
def check (s : Signature) : Except TypeError Unit :=
  if s.ret.isNone then .error .missingReturn
  else match s.args.findIdx? Option.isNone with
    | some i => .error (.missingArgument i)
    | none => .ok ()

end Signature

def Property.find? (props : List Property) (id : PropId) : Option Property :=
  props.find? (·.id = id)

/-- The first id that occurs a second time. -/
def Property.duplicate? : List Property → List PropId → Option PropId
  | [], _ => none
  | p :: rest, seen => if p.id ∈ seen then some p.id else duplicate? rest (p.id :: seen)

namespace Node

/-- The number of a node's kind. -/
def kindCode : Node → Nat
  | odd n => n
  | prim p => p.code
  | closure _ => 7
  | object _ => 8
  | array _ => 9
  | map _ => 10

/-- The name of a kind number. -/
def codeName (code : Nat) : String :=
  match Prim.ofCode? code with
  | some p => p.name
  | none =>
    match code with
    | 0 => "invalid"
    | 7 => "closure"
    | 8 => "object"
    | 9 => "array"
    | 10 => "map"
    | n => s!"kind({n})"

def isPrim : Node → Bool
  | prim _ => true
  | _ => false

def props : Node → List Property
  | object ps => ps
  | _ => []

def property? (n : Node) (id : PropId) : Option Property := Property.find? n.props id

def readWrite (n : Node) : List Property := n.props.filter (!·.readOnly)

def readOnly (n : Node) : List Property := n.props.filter (·.readOnly)

def signature? : Node → Option Signature
  | closure s => some s
  | _ => none

def explicitCount (n : Node) : Except TypeError Int :=
  match n with
  | closure s => .ok s.explicitCount
  | _ => .error .notClosure

def receiver : Node → Child
  | closure s => s.receiver
  | _ => none

/-- Types a node refers to, missing ones left out. -/
def children : Node → List TypeId
  | closure s => (s.ret :: s.args ++ [s.proto]).filterMap id
  | object ps => ps.filterMap (·.type)
  | array e | map e => e.toList
  | odd _ | prim _ => []

end Node

structure Graph where
  nodes : Array Node
  deriving DecidableEq, Repr

namespace Graph

/-- Only the shared primitive nodes. -/
def primitives : Graph :=
  ⟨#[.prim .int, .prim .float, .prim .bool, .prim .string, .prim .void, .prim .top]⟩

def size (g : Graph) : Nat := g.nodes.size

def node (g : Graph) (t : TypeId) : Node := g.nodes.getD t (.odd 0)

def add (g : Graph) (n : Node) : Graph × TypeId := (⟨g.nodes.push n⟩, g.nodes.size)

def define (g : Graph) (t : TypeId) (n : Node) : Graph := ⟨g.nodes.setIfInBounds t n⟩

def children (g : Graph) (t : TypeId) : List TypeId := (g.node t).children

def edgeCount (g : Graph) : Nat := g.nodes.foldl (fun n node => n + node.children.length) 0

/-- Depth-first search: adds everything reachable from the pending nodes to those seen. -/
def explore (g : Graph) : Nat → List TypeId → List TypeId → List TypeId
  | 0, _, seen => seen
  | _, [], seen => seen
  | fuel + 1, t :: pending, seen =>
    if t ∈ seen then g.explore fuel pending seen
    else g.explore fuel (g.children t ++ pending) (t :: seen)

/-- Every node reachable from the roots. A node's children are pending once, so the edges bound
the search. -/
def reachable (g : Graph) (roots : List TypeId) : List TypeId :=
  g.explore (roots.length + g.edgeCount) roots []

/-- Whether a node can be reached from itself. -/
def isCyclic (g : Graph) (t : TypeId) : Bool := t ∈ g.reachable (g.children t)

end Graph

end Gradual
