import Gradual.Heap.Record
import Gradual.Text.Quoted
import Gradual.Types.Checker
import Gradual.Types.Printer

/-!
The machine: heap, types, argument stack, result register and limits, and the three ways in which an
operation can fail. A failing operation leaves the state it had reached.

* A violation is the failure of a typed promise. It sets the `dirty` flag for good, and a host may
  catch it with `protect`.
* A misuse is an operation applied against its preconditions.
* `broken` and `exhausted` never happen in a run that the host sets up well: the first means that a
  reference inside the heap is wrong, the second that the fuel of a call was used up.
-/
namespace Gradual

inductive Reason where
  | tagMismatch | missingProperty | slotBudget | capacity | arity | notCallable
  deriving DecidableEq, Repr

namespace Reason

def name : Reason → String
  | tagMismatch => "tag mismatch"
  | missingProperty => "missing property"
  | slotBudget => "slot budget exceeded"
  | capacity => "capacity exhausted"
  | arity => "arity mismatch"
  | notCallable => "not callable"

def ofCode? : Nat → Option Reason
  | 1 => some tagMismatch
  | 2 => some missingProperty
  | 3 => some slotBudget
  | 4 => some capacity
  | 5 => some arity
  | 6 => some notCallable
  | _ => none

def codeName (code : Nat) : String :=
  match ofCode? code with
  | some r => r.name
  | none => s!"reason({code})"

end Reason

/-- The ways to break a typed promise. Values and types are held as the texts they had then. -/
inductive Violation where
  | wrongOperand (operation : String) (kind : ValueKind)
  | notArray (value : String)
  | prototypeCycle (value : String)
  | mismatch (value type : String)
  | needsConversion (property value type : String)
  | missingProperty (value property type : String)
  | noRoom (value : String) (slots : Nat) (property : String)
  | coercionDepth (limit : Nat)
  | hypotheses (rel : Relation) (left right : String)
  | argumentOverflow (limit : Nat)
  | argumentUnderflow
  | wrongArity (callee : String) (given wanted : Nat)
  | noTrampoline (count : Int) (type : String)
  | notCallable (value : String)
  | notConstructor (value : String)
  deriving DecidableEq, Repr

namespace Violation

def reason : Violation → Reason
  | wrongOperand .. | notArray _ | prototypeCycle _ | mismatch .. | needsConversion .. => .tagMismatch
  | missingProperty .. => .missingProperty
  | noRoom .. => .slotBudget
  | coercionDepth _ | hypotheses .. | argumentOverflow _ => .capacity
  | argumentUnderflow | wrongArity .. | noTrampoline .. => .arity
  | notCallable _ | notConstructor _ => .notCallable

def detail : Violation → String
  | wrongOperand operation kind => operation ++ " on " ++ kind.name
  | notArray value => "array operation on " ++ value
  | prototypeCycle value => "prototype cycle through " ++ value
  | mismatch value type => value ++ " is not " ++ type
  | needsConversion property value type =>
    "property " ++ Text.quoted property ++ " of " ++ value ++ " needs conversion to " ++ type
  | missingProperty value property type =>
    value ++ " has no property " ++ Text.quoted property ++ " of type " ++ type
  | noRoom value slots property =>
    value ++ " has " ++ toString slots ++ " fixed slots, no room for " ++ Text.quoted property
  | coercionDepth limit => "coercion nested deeper than " ++ toString limit
  | hypotheses rel left right =>
    let sign := match rel with
      | .subtype => " <: "
      | .equal => " = "
    CheckError.overflow.message ++ " checking " ++ left ++ sign ++ right
  | argumentOverflow limit => s!"argument stack overflow ({limit})"
  | argumentUnderflow => "argument stack underflow"
  | wrongArity callee given wanted =>
    callee ++ " called with " ++ toString given ++ " arguments, wants " ++ toString wanted
  | noTrampoline count type =>
    "no return trampoline for " ++ toString count ++ " arguments (" ++ type ++ ")"
  | notCallable value => "call of " ++ value
  | notConstructor value => value ++ " is not a constructor"

def message (v : Violation) : String := "type violation: " ++ v.reason.name ++ ": " ++ v.detail

end Violation

/-- Operations applied against their preconditions. -/
inductive Misuse where
  | word (e : WordError)
  | typeForm (e : TypeError)
  | layout (e : LayoutError)
  | missingType (rel : Relation)
  | notReference (kind : ValueKind)
  | invalidHandle (ref : Ref)
  | allocatedTwice
  | handleSpace
  | unknownProperty (id : PropId)
  | literalType
  | literalCount (values properties : Nat)
  | boxWritten
  | notString
  | nestedBox
  | readNotBox
  | writeNotBox
  | nestedBoxWrite
  | negativeIndex
  | allocation (bytes : Nat)
  | overrun (i : Int64) (places : Nat)
  | untypedCoercion
  | closureType
  | typedCode
  | codeArity (arity : Int) (type : String) (wanted : Int)
  | missingCode
  | constructorType
  | untypedConstructorCode
  | nullOwner
  deriving DecidableEq, Repr

def Misuse.message : Misuse → String
  | word e => e.message
  | typeForm e => e.message
  | layout e => e.message
  | missingType rel => (CheckError.missing rel).message
  | notReference kind => "vm: " ++ kind.name ++ " is not a heap reference"
  | invalidHandle ref => s!"Heap.Record: invalid handle {ref}"
  | allocatedTwice => "Heap.Alloc: record already allocated"
  | handleSpace => "Heap.Alloc: handle space exhausted"
  | unknownProperty id => s!"vm: unknown property id {id}"
  | literalType => "Runtime.NewObjectLiteral: not an object type"
  | literalCount values properties =>
    s!"Runtime.NewObjectLiteral: {values} values for {properties} properties"
  | boxWritten => "Runtime.Set: boxes are not first-class values"
  | notString => "Runtime.StringOf: not a string"
  | nestedBox => "Runtime.NewBox: nested box"
  | readNotBox => "Runtime.BoxGet: not a box"
  | writeNotBox => "Runtime.BoxSet: not a box"
  | nestedBoxWrite => "Runtime.BoxSet: nested box"
  | negativeIndex => "ArrayStore.Put: negative index"
  | allocation _ => "runtime error: makeslice: len out of range"
  | overrun _ places => s!"runtime error: index out of range [{places}] with length {places}"
  | untypedCoercion => "Runtime.Coerce: nil type"
  | closureType => "Runtime.NewClosure: need a function or method type"
  | typedCode => "vm: typed closure needs Code0..Code4"
  | codeArity arity type wanted =>
    "vm: code takes " ++ toString arity ++ " arguments, type " ++ type ++ " takes " ++ toString wanted
  | missingCode => "Runtime.NewUntypedClosure: nil code"
  | constructorType => "Runtime.NewConstructor: need a constructor type"
  | untypedConstructorCode => "Runtime.NewConstructor: untyped constructor needs UntypedCode"
  | nullOwner => "vm.Aliased: null owner"

inductive Fault where
  | violation (v : Violation)
  | misuse (m : Misuse)
  | broken
  | exhausted
  deriving DecidableEq, Repr

def Fault.message : Fault → String
  | violation v => v.message
  | misuse m => m.message
  | broken => "broken invariant"
  | exhausted => "calls nested too deep"

structure Limits where
  /-- Fixed slots of an untyped object. -/
  conversionSlots : Nat
  coerceDepth : Nat
  subtypeDepth : Nat
  argStack : Nat
  variance : Variance
  deriving DecidableEq, Repr

namespace Limits

def default : Limits := ⟨10, 128, 50, 100, .covariant⟩

/-- Limits that are not positive take their defaults. -/
def normalize (conversionSlots coerceDepth subtypeDepth argStack : Int) (variance : Variance) :
    Limits :=
  let pick (n : Int) (d : Nat) : Nat := if n ≤ 0 then d else n.toNat
  { conversionSlots := pick conversionSlots default.conversionSlots
    coerceDepth := pick coerceDepth default.coerceDepth
    subtypeDepth := pick subtypeDepth default.subtypeDepth
    argStack := pick argStack default.argStack
    variance }

end Limits

structure Machine where
  /-- What property stores are made for. -/
  hash : String → UInt64
  limits : Limits
  oracle : Oracle
  types : TypeStore
  heap : Heap
  /-- The argument stack, top first. -/
  args : List Word
  lastReturn : Word
  /-- Coercions in progress. -/
  depth : Nat
  /-- Set by the first violation and never cleared. -/
  dirty : Bool
  /-- What programs have traced, latest first. -/
  trace : List String

def Machine.initial (hash : String → UInt64) (limits : Limits) (oracle : Oracle) (types : TypeStore) : Machine :=
  ⟨hash, limits, oracle, types, Heap.empty, [], Word.undefined, 0, false, []⟩

def Machine.checker (m : Machine) : Checker := ⟨m.limits.subtypeDepth, m.limits.variance, m.oracle⟩

def Machine.format (m : Machine) (t : Child) : String := m.types.graph.print m.types.names.name t

abbrev Run := EStateM Fault Machine

namespace Run

def violate (v : Violation) : Run α := do
  modify fun m => { m with dirty := true }
  throw (.violation v)

def misuse (m : Misuse) : Run α := throw (.misuse m)

def broken : Run α := throw .broken

def decode (w : Word) : Run Value :=
  match w.decode? with
  | some v => pure v
  | none => misuse (.word (.malformed w))

def asInt (w : Word) : Run Int32 := do
  match (← decode w).asInt with
  | .ok n => return n
  | .error e => misuse (.word e)

def node (t : TypeId) : Run Node := do return (← get).types.graph.node t

def format (t : Child) : Run String := do return (← get).format t

/-- Runs a type builder on the machine's types. -/
def build (b : TypeBuilder α) : Run α := fun m =>
  match b m.types with
  | .ok a types => .ok a { m with types }
  | .error e types => .error (.misuse (.typeForm e)) { m with types }

def recordAt (ref : Ref) : Run Record := do
  match (← get).heap.get? ref with
  | some r => return r
  | none => misuse (.invalidHandle ref)

/-- The handle and the record behind a reference. -/
def record (w : Word) : Run (Ref × Record) := do
  let v ← decode w
  match v.ref? with
  | some ref => return (ref, ← recordAt ref)
  | none => misuse (.notReference v.kind)

/-- The record behind a word, none if it is no reference. -/
def record? (w : Word) : Run (Option (Ref × Record)) := do
  let v ← decode w
  match v.ref? with
  | some ref => return some (ref, ← recordAt ref)
  | none => return none

def updateRecord (ref : Ref) (f : Record → Record) : Run Unit :=
  modify fun m => { m with heap := m.heap.update ref f }

/-- Adds a record and returns the reference to it. -/
def allocate (r : Record) : Run Word := do
  let m ← get
  let ref := m.heap.size + 1
  if ref ≤ maxRef then
    set { m with heap := m.heap.add r }
    return r.word ref
  else misuse .handleSpace

/-- The name of a property, which must have one. -/
def propName (id : PropId) : Run String := do
  let name := (← get).types.names.name id
  if name = "" then misuse (.unknownProperty id) else return name

def intern (name : String) : Run PropId :=
  build (TypeBuilder.resolve (.name name))

def resolve (prop : PropRef) : Run PropId := build (TypeBuilder.resolve prop)

/-- A value in messages: its text, with kind and type of its record. -/
def describe (w : Word) : Run String := do
  match ← record? w with
  | none => return (← decode w).text
  | some (_, r) =>
    let v ← decode w
    match r.tag with
    | none => return "untyped " ++ r.kind.name ++ " " ++ v.text
    | some t => return r.kind.name ++ " " ++ v.text ++ ": " ++ (← format (some t))

def mismatch (w : Word) (t : Child) : Run α := do
  let value ← describe w
  let type ← format t
  violate (.mismatch value type)

end Run

/-- Drops what was pushed above `height` arguments and restores the coercion depth. -/
def Machine.recover (m : Machine) (height depth : Nat) : Machine :=
  { m with args := m.args.drop (m.args.length - height), depth }

/-- Runs an action and catches its violation. The flag stays set. -/
def Run.protect (act : Run α) : Run (Except Violation α) := fun m =>
  match act m with
  | .ok a m' => .ok (.ok a) m'
  | .error (.violation v) m' => .ok (.error v) (m'.recover m.args.length m.depth)
  | .error f m' => .error f m'

end Gradual
