import Gradual.Machine.Coercion

/-!
Calls. Typed code is called with a receiver and a fixed number of arguments. Untyped code takes them
from the argument stack, receiver on top, and leaves its result in the return register. Wrappers join
the two: an importing closure calls untyped code from typed code and coerces the result, an exporting
one calls typed code from untyped code and coerces the arguments.

How the body of a closure runs is a parameter, the `Host`, so that everything here holds for bodies of
any kind. `fuel` bounds the nesting of wrappers.
-/
namespace Gradual

/-- How bodies run: with a receiver and arguments, or on the argument stack. -/
structure Host where
  typed : Body → Option (List Word) → Word → List Word → Run Word
  untyped : Body → Option (List Word) → Run Unit

namespace Run

def pushArg (w : Word) : Run Unit := do
  let m ← get
  if m.args.length ≥ m.limits.argStack then violate (.argumentOverflow m.limits.argStack)
  set { m with args := w :: m.args }

def popArg : Run Word := do
  let m ← get
  match m.args with
  | [] => violate .argumentUnderflow
  | w :: rest =>
    set { m with args := rest }
    return w

def clearArgs : Run Unit := modify fun m => { m with args := [] }

def setReturn (w : Word) : Run Unit := modify fun m => { m with lastReturn := w }

/-- Pushes the arguments last to first and the receiver on top. -/
def pushCall (recv : Word) (args : List Word) : Run Unit := do
  args.reverse.forM pushArg
  pushArg recv

/-- Drops arguments that a call has left above `height`. -/
def dropArgs (height : Nat) : Run Unit :=
  modify fun m => { m with args := m.args.drop (m.args.length - height) }

/-- The record of a closure value; anything else cannot be called. -/
def callable (fn : Word) : Run (Ref × Record × Code) := do
  match ← decode fn with
  | .closure ref =>
    let r ← recordAt ref
    match r.code? with
    | some code => return (ref, r, code)
    | none => violate (.notCallable (← describe fn))
  | _ => violate (.notCallable (← describe fn))

/-- Pops one argument for each type and coerces it. -/
def popCoerced : List Child → Run (List Word)
  | [] => return []
  | t :: rest => do
    let w ← coerce (← popArg) t
    let ws ← popCoerced rest
    return w :: ws

/-- Pops the receiver and coerces it if the type says what it has to be. -/
def popReceiver (sig : Signature) : Run Word := do
  let recv ← popArg
  match sig.receiver with
  | none => return recv
  | some t => coerce recv (some t)

/-- The signature of a closure type. -/
def signature (t : TypeId) : Run Signature := do
  match (← node t).signature? with
  | some sig => return sig
  | none => broken

/-- The code of a record inside a wrapper. -/
def wrappedCode (ref : Ref) : Run (Record × Code) := do
  let r ← recordAt ref
  match r.code? with
  | some code => return (r, code)
  | none => broken

mutual

/-- Runs typed code, which must be given its arguments. -/
def invoke (host : Host) : Nat → Code → Word → List Word → Run Word
  | 0, _, _, _ => throw .exhausted
  | _, .typed arity body env, recv, args => do
    if args.length < arity then broken
    host.typed body env recv args
  | fuel + 1, .importing arity wrapped t, recv, args => do
    if args.length < arity then broken
    let (_, code) ← wrappedCode wrapped
    let result ← callOnStack host fuel code recv args
    coerce result (← signature t).ret
  | _, .untyped _ _, _, _ | _, .exporting _ _, _, _ => broken

/-- Runs untyped code on the argument stack. -/
def runUntyped (host : Host) : Nat → Code → Run Unit
  | 0, _ => throw .exhausted
  | _, .untyped body env => host.untyped body env
  | fuel + 1, .exporting wrapped _ => do
    let (r, code) ← wrappedCode wrapped
    setReturn (← enterTyped host fuel r code)
  | _, .typed _ _ _ | _, .importing _ _ _ => broken

/-- Calls untyped code with arguments and drops those it does not take. -/
def callOnStack (host : Host) : Nat → Code → Word → List Word → Run Word
  | 0, _, _, _ => throw .exhausted
  | fuel + 1, code, recv, args => do
    let height := (← get).args.length
    pushCall recv args
    setReturn Word.undefined
    runUntyped host fuel code
    dropArgs height
    return (← get).lastReturn

/-- Calls typed code with a receiver and arguments from the stack, coerced to its signature. -/
def enterTyped (host : Host) : Nat → Record → Code → Run Word
  | 0, _, _ => throw .exhausted
  | fuel + 1, r, code => do
    match r.tag with
    | none => broken
    | some t =>
      let sig ← signature t
      let recv ← popReceiver sig
      let args ← popCoerced sig.explicit
      invoke host fuel code recv args

end

/-- Calls a closure with the typed convention. Arguments are not coerced: the caller is typed. -/
def callRecord (host : Host) (fuel : Nat) (ref : Ref) (r : Record) (code : Code) (recv : Word)
    (args : List Word) : Run Word := do
  match code.arity? with
  | none => callOnStack host fuel code recv args
  | some arity =>
    if args.length ≠ arity then
      violate (.wrongArity (← describe (r.word ref)) args.length arity)
    invoke host fuel code recv args

def call (host : Host) (fuel : Nat) (fn recv : Word) (args : List Word) : Run Word := do
  let (ref, r, code) ← callable fn
  callRecord host fuel ref r code recv args

/-- Calls a closure whose receiver and arguments are on the stack; the result is in the register. -/
def callUntyped (host : Host) (fuel : Nat) (fn : Word) : Run Unit := do
  let (_, r, code) ← callable fn
  if code.isUntyped then
    setReturn Word.undefined
    runUntyped host fuel code
  else
    setReturn (← enterTyped host fuel r code)

/-- Calls a closure with the untyped convention and given arguments. -/
def callWith (host : Host) (fuel : Nat) (fn recv : Word) (args : List Word) : Run Word := do
  let height := (← get).args.length
  pushCall recv args
  callUntyped host fuel fn
  dropArgs height
  return (← get).lastReturn

/-- Makes an object that inherits from the constructor's prototype and runs the constructor on it. An
object type of the receiver is then given to the new object. -/
def construct (host : Host) (fuel : Nat) (ctor : Word) (args : List Word) : Run Word := do
  let (ref, r, code) ← callable ctor
  if r.kind ≠ .constructor then violate (.notConstructor (← describe ctor))
  let obj ← newObject 0
  let (objRef, _) ← record obj
  updateRecord objRef fun o => { o with proto := r.prototype? }
  discard (callRecord host fuel ref r code obj args)
  match r.tag with
  | none => return obj
  | some t =>
    match (← node t).receiver with
    | none => return obj
    | some recv =>
      match ← node recv with
      | .object _ =>
        discard (coerce obj (some recv))
        return obj
      | _ => return obj

/-- Wraps a typed closure for untyped callers; untyped closures stay as they are. -/
def exportClosure (fn : Word) : Run Word := do
  let (ref, r, _) ← callable fn
  match r.tag with
  | none => return fn
  | some t => allocate (Record.plain (.untypedClosure (.exporting ref t)))

/-- The code a closure is made with: none, or typed or untyped code around a body. -/
inductive GivenCode where
  | absent
  | typed (arity : Nat)
  | untyped
  deriving DecidableEq, Repr

namespace GivenCode

/-- Typed code exists for zero to four arguments, untyped code has arity minus one. -/
def ofArity (arity : Int) : GivenCode :=
  if arity = -1 then untyped
  else if 0 ≤ arity ∧ arity ≤ maxArity then typed arity.toNat
  else absent

end GivenCode

/-- Code for a typed closure must take as many arguments as the type says. -/
def checkTypedCode (t : TypeId) (code : GivenCode) : Run Nat := do
  match code with
  | .absent | .untyped => misuse .typedCode
  | .typed arity =>
    let m ← get
    match (m.types.graph.node t).explicitCount with
    | .error e => misuse (.typeForm e)
    | .ok wanted =>
      if (arity : Int) ≠ wanted then
        misuse (.codeArity arity (m.types.graph.printBare (some t)) wanted)
      return arity

/-- A closure of a function or method type. -/
def newClosure (t : Child) (code : GivenCode) (body : Body) (env : Option (List Word)) :
    Run Word := do
  match t with
  | none => misuse .closureType
  | some t =>
    match (← node t).signature? with
    | none => misuse .closureType
    | some sig =>
      if sig.code = .constructor then misuse .closureType
      let arity ← checkTypedCode t code
      allocate { Record.plain (.closure (.typed arity body env)) with tag := some t }

def newUntyped (body : Body) (env : Option (List Word)) : Run Word :=
  allocate (Record.plain (.untypedClosure (.untyped body env)))

/-- The record behind the prototype given to a constructor, none for null. -/
def prototypeLink (proto : Word) : Run (Option Ref) := do
  if (← decode proto).kind = .null then return none
  return some (← propRecord "constructor prototype" proto).1

/-- A constructor. Without a type it must have untyped code. -/
def newConstructor (t : Child) (proto : Word) (code : GivenCode) (body : Body)
    (env : Option (List Word)) : Run Word := do
  match t with
  | none =>
    if code ≠ .untyped then misuse .untypedConstructorCode
    let link ← prototypeLink proto
    allocate (Record.plain (.constructor (.untyped body env) link))
  | some t =>
    match (← node t).signature? with
    | none => misuse .constructorType
    | some sig =>
      if sig.code ≠ .constructor then misuse .constructorType
      let arity ← checkTypedCode t code
      let link ← prototypeLink proto
      allocate { Record.plain (.constructor (.typed arity body env) link) with tag := some t }

/-- The prototype of a constructor's instances, null if there is none. -/
def constructorPrototype (fn : Word) : Run Word := do
  let (_, r, _) ← callable fn
  linkWord r.prototype?

end Run

end Gradual
