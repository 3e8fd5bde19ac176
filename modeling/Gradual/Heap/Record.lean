import Gradual.Heap.Deque
import Gradual.Program.Syntax
import Gradual.Property.HashStore
import Gradual.Property.Layout

/-!
Heap records. Every record has the parts of an object (a layout, a prototype link, a property store,
a type tag), so that properties work alike on objects, closures, constructors and arrays; what else
it holds depends on its kind.
-/
namespace Gradual

inductive RecordKind where
  | object | closure | untypedClosure | constructor | array | string | box
  deriving DecidableEq, Repr

namespace RecordKind

def name : RecordKind → String
  | object => "object"
  | closure => "closure"
  | untypedClosure => "untyped closure"
  | constructor => "constructor"
  | array => "array"
  | string => "string"
  | box => "box"

def all : List RecordKind := [object, closure, untypedClosure, constructor, array, string, box]

def codeName (code : Nat) : String :=
  match all[code]? with
  | some k => k.name
  | none => s!"recordkind({code})"

def isCallable : RecordKind → Bool
  | closure | untypedClosure | constructor => true
  | _ => false

def codeIsCallable (code : Nat) : Bool := all[code]?.any isCallable

end RecordKind

/-- The storage of a fixed property: a value, or a reference to a slot of another record. -/
inductive Slot where
  | here (w : Word)
  | forward (owner : Ref) (index : Nat)
  deriving DecidableEq, Repr

def Slot.isForward : Slot → Bool
  | forward _ _ => true
  | here _ => false

/-- Where a layout comes from. Literals of one type share a layout; a migrated object has its own. -/
inductive LayoutOrigin where
  | literal (t : TypeId)
  | migrated (r : Ref)
  deriving DecidableEq, Repr

structure FixedLayout where
  origin : LayoutOrigin
  table : Layout Nat
  deriving DecidableEq, Repr

/-- What runs when a closure is called.

* `typed` code takes a receiver and a fixed number of arguments;
* `untyped` code pops its receiver and arguments from the argument stack;
* `importing` makes an untyped closure callable from typed code: it passes its arguments on the
  stack and coerces the result;
* `exporting` makes a typed closure callable from untyped code: it pops and coerces the arguments. -/
inductive Code where
  | typed (arity : Nat) (body : Body) (env : Option (List Word))
  | untyped (body : Body) (env : Option (List Word))
  | importing (arity : Nat) (wrapped : Ref) (type : TypeId)
  | exporting (wrapped : Ref) (type : TypeId)

namespace Code

/-- The number of arguments of typed code. -/
def arity? : Code → Option Nat
  | typed n _ _ => some n
  | importing n _ _ => some n
  | untyped _ _ | exporting _ _ => none

def isUntyped (c : Code) : Bool := c.arity?.isNone

end Code

inductive RecordBody where
  | object (slots : Array Slot)
  | closure (code : Code)
  | untypedClosure (code : Code)
  | constructor (code : Code) (prototype : Option Ref)
  | array (elems : Deque)
  | string (text : String)
  | box

/-- A store with the hash function that it was made for. -/
structure PropertyStore where
  hash : String → UInt64
  table : HashStore Word

namespace PropertyStore

def empty (hash : String → UInt64) : PropertyStore := ⟨hash, HashStore.empty 0⟩

def get? (s : PropertyStore) (name : String) : Option Word := s.table.get? s.hash name

def put (s : PropertyStore) (name : String) (w : Word) : PropertyStore :=
  { s with table := s.table.put s.hash name w }

/-- Removes a name and says whether it was there. -/
def erase (s : PropertyStore) (name : String) : PropertyStore × Bool :=
  let (table, found) := s.table.erase s.hash name
  ({ s with table }, found)

def keys (s : PropertyStore) : List String := s.table.keys

end PropertyStore

structure Record where
  body : RecordBody
  layout : Option FixedLayout
  proto : Option Ref
  /-- Properties without a fixed slot; created by the first write to one. -/
  dyn : Option PropertyStore
  tag : Option TypeId
  /-- Set while the record is being given a layout, and left set when that fails. -/
  migrating : Bool
  /-- What a box reference to this record reads and writes. -/
  cell : Word

namespace Record

/-- An untyped record without properties. -/
def plain (body : RecordBody) : Record := ⟨body, none, none, none, none, false, Word.null⟩

def kind (r : Record) : RecordKind :=
  match r.body with
  | .object _ => .object
  | .closure _ => .closure
  | .untypedClosure _ => .untypedClosure
  | .constructor _ _ => .constructor
  | .array _ => .array
  | .string _ => .string
  | .box => .box

/-- The reference to a record with handle `ref`, which shows its kind. -/
def word (r : Record) (ref : Ref) : Word :=
  match r.kind with
  | .closure | .untypedClosure | .constructor => Word.closureRef ref
  | .string => Word.stringRef ref
  | .box => Word.boxRef ref
  | .object | .array => Word.objectRef ref

def value (r : Record) (ref : Ref) : Value :=
  match r.kind with
  | .closure | .untypedClosure | .constructor => .closure ref
  | .string => .string ref
  | .box => .box ref
  | .object | .array => .object ref

def slots (r : Record) : Array Slot :=
  match r.body with
  | .object slots => slots
  | _ => #[]

def code? (r : Record) : Option Code :=
  match r.body with
  | .closure c | .untypedClosure c | .constructor c _ => some c
  | _ => none

def prototype? (r : Record) : Option Ref :=
  match r.body with
  | .constructor _ p => p
  | _ => none

def text (r : Record) : String :=
  match r.body with
  | .string s => s
  | _ => ""

def elems? (r : Record) : Option Deque :=
  match r.body with
  | .array d => some d
  | _ => none

def slotOf? (r : Record) (id : PropId) : Option Nat := r.layout.bind (·.table.slot? id)

def fixedSize (r : Record) : Nat := (r.layout.map (·.table.size)).getD 0

def setSlot (r : Record) (i : Nat) (s : Slot) : Record :=
  match r.body with
  | .object slots => { r with body := .object (slots.setIfInBounds i s) }
  | _ => r

def setElems (r : Record) (d : Deque) : Record :=
  match r.body with
  | .array _ => { r with body := .array d }
  | _ => r

def dynGet? (r : Record) (name : String) : Option Word := r.dyn.bind (·.get? name)

/-- The record with a store, made for the given hash if there was none. -/
def withStore (hash : String → UInt64) (r : Record) : Record :=
  { r with dyn := some (r.dyn.getD (PropertyStore.empty hash)) }

/-- Writes to the store, which is there. -/
def dynPut (r : Record) (name : String) (w : Word) : Record := { r with dyn := r.dyn.map (·.put name w) }

def dynErase (r : Record) (name : String) : Record × Bool :=
  match r.dyn with
  | none => (r, false)
  | some s => let (s, found) := s.erase name; ({ r with dyn := some s }, found)

end Record

/-- Records by handle. A handle is one more than the position of its record. -/
structure Heap where
  records : Array Record

namespace Heap

def empty : Heap := ⟨#[]⟩

def size (h : Heap) : Nat := h.records.size

def get? (h : Heap) (ref : Ref) : Option Record :=
  if ref = 0 then none else h.records[ref - 1]?

def add (h : Heap) (r : Record) : Heap := ⟨h.records.push r⟩

def update (h : Heap) (ref : Ref) (f : Record → Record) : Heap :=
  if ref = 0 then h else ⟨h.records.modify (ref - 1) f⟩

def count (h : Heap) (k : RecordKind) : Nat := h.records.toList.countP (·.kind = k)

/-- The record `ref` and its prototypes, nearest first; `fuel` bounds their number. -/
def chainWithin (h : Heap) : Nat → Option Ref → List Ref
  | 0, _ => []
  | _, none => []
  | fuel + 1, some ref => ref :: h.chainWithin fuel ((h.get? ref).bind (·.proto))

/-- A prototype chain has no cycle, so it is no longer than the heap. -/
def chain (h : Heap) (start : Option Ref) : List Ref := h.chainWithin h.size start

/-- Follows forwarding slots to a value. -/
def resolveWithin (h : Heap) : Nat → Slot → Option Word
  | _, .here w => some w
  | 0, .forward _ _ => none
  | fuel + 1, .forward owner index =>
    match (h.get? owner).bind (·.slots[index]?) with
    | some s => h.resolveWithin fuel s
    | none => none

/-- The value of a slot. Forwarding has no cycle, so it takes fewer steps than there are records. -/
def resolve (h : Heap) (s : Slot) : Option Word := h.resolveWithin h.size s

end Heap

end Gradual
