import Gradual.Machine.Call
import Gradual.Machine.Inspect

/-!
Running programs. A step evaluates its operands in order, performs its operation and may keep the
value in a register. The top level has one set of registers; each call of a body has its own, and
falls back on those of the top level.
-/
namespace Gradual

abbrev Registers := List (String × Word)

def Registers.put (regs : Registers) (name : String) (w : Word) : Registers :=
  (name, w) :: regs.filter (·.1 ≠ name)

structure Session where
  machine : Machine
  registers : Registers

abbrev Exec := EStateM Fault Session

/-- What a step answers its host. -/
inductive Answer where
  | value (shown : String)
  | done
  | flag (b : Bool)
  | number (n : Int)
  | text (s : String)
  | optionalText (s : Option String)
  | names (all : List String)
  | keys (fixed dynamic : List String)
  | array (state : ArrayState)
  | sized (size : Nat) (state : ArrayState)
  | taken (shown : String) (state : ArrayState)
  | caught (v : Violation)
  | record (state : Option RecordState)
  | records (states : List RecordState)
  | counts (byKind : List (RecordKind × Nat))
  | limits (limits : Limits)
  | slot (isForward : Bool) (owner : Ref) (index : Int)

/-- What a step can refer to besides its own registers. -/
structure Context where
  scope : TypeScope
  /-- The registers of the top level, while a body runs. -/
  outer : Option Registers

namespace Exec

/-- Runs an action of the machine. -/
def lift (act : Run α) : Exec α := fun s =>
  match act s.machine with
  | .ok a m => .ok a { s with machine := m }
  | .error f m => .error f { s with machine := m }

instance : MonadLift Run Exec := ⟨lift⟩

/-- Runs with registers of its own. -/
def withRegisters (regs : Registers) (act : Exec α) : Run α := fun m =>
  match act ⟨m, regs⟩ with
  | .ok a s => .ok a s.machine
  | .error f s => .error f s.machine

/-- Catches a violation, as `Run.protect` does. Registers keep what was written. -/
def protect (act : Exec α) : Exec (Except Violation α) := fun s =>
  match act s with
  | .ok a s' => .ok (.ok a) s'
  | .error (.violation v) s' =>
    let m := s'.machine.recover s.machine.args.length s.machine.depth
    .ok (.error v) { s' with machine := m }
  | .error f s' => .error f s'

/-- The value of a register; one that was never written is undefined. -/
def register (ctx : Context) (name : String) : Exec Word := do
  match (← get).registers.lookup name with
  | some w => return w
  | none => return (ctx.outer.bind (·.lookup name)).getD Word.undefined

def operand (ctx : Context) : Operand → Exec Word
  | .word w => return w
  | .register name => register ctx name
  | .text s => Run.newString s

def operands (ctx : Context) (os : List Operand) : Exec (List Word) := os.mapM (operand ctx)

def environment (ctx : Context) : Option (List Operand) → Exec (Option (List Word))
  | none => return none
  | some os => do return some (← operands ctx os)

def type (ctx : Context) (e : TypeExpr) : Exec Child := Run.build (e.build ctx.scope)

/-- Keeps a value in a register and answers it. -/
def keep (dest : Option String) (w : Word) : Exec Answer := do
  match dest with
  | none => pure ()
  | some name => modify fun s => { s with registers := s.registers.put name w }
  return .value (← Run.shown w)

def emit (line : String) : Exec Unit :=
  modify fun s => { s with machine := { s.machine with trace := line :: s.machine.trace } }

/-- Registers `e0`, `e1`, ... with the captured environment. -/
def capturedRegisters (env : Option (List Word)) : Registers :=
  (env.getD []).zipIdx.map fun (w, i) => (s!"e{i}", w)

def argumentRegisters (args : List Word) : Registers :=
  args.zipIdx.map fun (w, i) => (toString i, w)

/-- Steps one after the other, their answers dropped. -/
def steps (exec : Step → Exec Answer) (all : List Step) : Exec Unit :=
  all.forM fun s => discard (exec s)

/-- How bodies run, given how steps do. -/
def host (exec : Context → Step → Exec Answer) (scope : TypeScope) (globals : Registers) : Host where
  typed body env recv args :=
    let ctx : Context := ⟨scope, some globals⟩
    let .mk _ all ret := body
    withRegisters (("recv", recv) :: argumentRegisters args ++ capturedRegisters env) do
      steps (exec ctx) all
      match ret with
      | none => return Word.undefined
      | some o => operand ctx o
  untyped body env :=
    let ctx : Context := ⟨scope, some globals⟩
    let .mk pop all ret := body
    withRegisters (capturedRegisters env) do
      pop.forM fun name => do
        let w ← Run.popArg
        modify fun s => { s with registers := s.registers.put name w }
      steps (exec ctx) all
      match ret with
      | none => return
      | some o => Run.setReturn (← operand ctx o)

/-- The code chosen for a closure: by its arity if one is given, else by its type. -/
def givenCode (t : Child) (arity : Option Int) : Exec Run.GivenCode := do
  match arity, t with
  | some n, _ => return .ofArity n
  | none, none => return .untyped
  | none, some t =>
    match (← (Run.node t : Run Node)).signature? with
    | none => return .ofArity 0
    | some sig => return .ofArity sig.explicitCount

/-- `count` objects, each holding the one before in one property. -/
def chain (id : PropId) : Nat → Word → Run Word
  | 0, w => return w
  | count + 1, w => do
    let o ← Run.newObject 0
    Run.setProp o id w
    chain id count o

def nestArray : Nat → Word → Run Word
  | 0, w => return w
  | count + 1, w => do nestArray count (← Run.newArray [w])

def arrayAnswer (arr : Word) : Run ArrayState := do
  Run.arrayState (← Run.arrayOf arr).2

def numArgs : Exec Answer := do return .number (← get).machine.args.length

/-- Performs one operation. `exec` runs the steps inside of it and `fuel` bounds its calls. -/
def perform (exec : Context → Step → Exec Answer) (fuel : Nat) (ctx : Context)
    (dest : Option String) (op : Operation) : Exec Answer := do
  let bodies := host exec ctx.scope (ctx.outer.getD (← get).registers)
  match op with
  | .newObject n => keep dest (← Run.newObject n)
  | .literal e values =>
    let t ← type ctx e
    let ws ← operands ctx values
    match t with
    | none => Run.broken
    | some t => keep dest (← Run.newLiteral t ws)
  | .newArray elems => keep dest (← Run.newArray (← operands ctx elems))
  | .newString s => keep dest (← Run.newString s)
  | .newBox v => keep dest (← Run.newBox (← operand ctx v))
  | .newClosure e body arity env =>
    let t ← type ctx e
    let code ← givenCode t arity
    let env ← environment ctx env
    keep dest (← Run.newClosure t code body env)
  | .newUntyped body env withoutCode =>
    let env ← environment ctx env
    if withoutCode then Run.misuse .missingCode
    keep dest (← Run.newUntyped body env)
  | .newConstructor e proto body arity env =>
    let t ← type ctx e
    let proto ← operand ctx proto
    let code ← givenCode t arity
    let env ← environment ctx env
    keep dest (← Run.newConstructor t proto code body env)
  | .value v => keep dest (← operand ctx v)
  | .get obj prop =>
    let obj ← operand ctx obj
    keep dest (← Run.getProp obj (← Run.resolve prop))
  | .set obj v prop =>
    let obj ← operand ctx obj
    let v ← operand ctx v
    Run.setProp obj (← Run.resolve prop) v
    return .done
  | .getNamed obj name =>
    let obj ← operand ctx obj
    keep dest (← Run.getNamed obj name)
  | .setNamed obj v name =>
    let obj ← operand ctx obj
    let v ← operand ctx v
    Run.setNamed obj name v
    return .done
  | .hasOwn obj prop =>
    let obj ← operand ctx obj
    return .flag (← Run.hasOwn obj (← Run.resolve prop))
  | .delete obj prop =>
    let obj ← operand ctx obj
    return .flag (← Run.deleteProp obj (← Run.resolve prop))
  | .keys obj =>
    let (fixed, dynamic) ← Run.ownKeys (← operand ctx obj)
    return .keys fixed dynamic
  | .setPrototype obj proto =>
    let obj ← operand ctx obj
    Run.setPrototype obj (← operand ctx proto)
    return .done
  | .prototype obj => keep dest (← Run.prototypeOf (← operand ctx obj))
  | .tagOf v =>
    match ← (Run.tagOf (← operand ctx v) : Run _) with
    | none => return .optionalText none
    | some t => return .optionalText (some (← Run.format (some t)))
  | .fill obj stem count =>
    let obj ← operand ctx obj
    (List.range count).forM fun i =>
      (Run.setNamed obj (stem ++ toString i) (Word.ofInt (Int32.ofNat i)) : Run Unit)
    return .done
  | .chain v prop count =>
    let v ← operand ctx v
    keep dest (← chain (← Run.resolve prop) count v)
  | .nestArray v count => keep dest (← nestArray count (← operand ctx v))
  | .arrayGet arr i => keep dest (← Run.arrayGet (← operand ctx arr) i)
  | .arrayPut arr v i =>
    let arr ← operand ctx arr
    Run.arrayPut arr i (← operand ctx v)
    return .array (← arrayAnswer arr)
  | .arrayPush arr v =>
    let arr ← operand ctx arr
    let size ← Run.arrayPush arr (← operand ctx v)
    return .sized size (← arrayAnswer arr)
  | .arrayUnshift arr v =>
    let arr ← operand ctx arr
    let size ← Run.arrayUnshift arr (← operand ctx v)
    return .sized size (← arrayAnswer arr)
  | .arrayPop arr =>
    let arr ← operand ctx arr
    let w ← Run.arrayPop arr
    return .taken (← Run.shown w) (← arrayAnswer arr)
  | .arrayShift arr =>
    let arr ← operand ctx arr
    let w ← Run.arrayShift arr
    return .taken (← Run.shown w) (← arrayAnswer arr)
  | .arraySize arr =>
    let (_, d) ← Run.arrayOf (← operand ctx arr)
    return .number d.size
  | .arrayCapacity arr =>
    let (_, d) ← Run.arrayOf (← operand ctx arr)
    return .number d.capacity
  | .stringOf v => return .text (← Run.stringOf (← operand ctx v))
  | .boxGet b => keep dest (← Run.boxGet (← operand ctx b))
  | .boxSet b v =>
    let b ← operand ctx b
    Run.boxSet b (← operand ctx v)
    return .done
  | .access b e =>
    let b ← operand ctx b
    keep dest (← Run.accessBox b (← type ctx e))
  | .accessInt b => return .number (← Run.accessInt (← operand ctx b)).toInt
  | .coerce v e =>
    let v ← operand ctx v
    keep dest (← Run.coerce v (← type ctx e))
  | .tryCoerce v e =>
    let v ← operand ctx v
    let t ← type ctx e
    match ← (Run.protect (Run.coerce v t) : Run _) with
    | .ok w => keep dest w
    | .error violation => return .caught violation
  | .exportClosure fn => keep dest (← Run.exportClosure (← operand ctx fn))
  | .call fn recv args =>
    let fn ← operand ctx fn
    let recv ← operand ctx recv
    keep dest (← Run.call bodies fuel fn recv (← operands ctx args))
  | .callUntyped fn =>
    Run.callUntyped bodies fuel (← operand ctx fn)
    keep dest (← get).machine.lastReturn
  | .callWith fn recv args =>
    let fn ← operand ctx fn
    let recv ← operand ctx recv
    keep dest (← Run.callWith bodies fuel fn recv (← operands ctx args))
  | .construct fn args =>
    let fn ← operand ctx fn
    keep dest (← Run.construct bodies fuel fn (← operands ctx args))
  | .constructorPrototype fn => keep dest (← Run.constructorPrototype (← operand ctx fn))
  | .push v =>
    Run.pushArg (← operand ctx v)
    numArgs
  | .pushTimes v count =>
    let v ← operand ctx v
    (List.replicate count v).forM fun w => (Run.pushArg w : Run Unit)
    numArgs
  | .pop => keep dest (← Run.popArg)
  | .clearArgs =>
    Run.clearArgs
    numArgs
  | .lastReturn => keep dest (← get).machine.lastReturn
  | .setReturn v =>
    Run.setReturn (← operand ctx v)
    return .done
  | .add a b =>
    let a ← operand ctx a
    let b ← operand ctx b
    let m ← Run.asInt a
    let n ← Run.asInt b
    keep dest (Word.ofInt (m + n))
  | .multiply a b =>
    let a ← operand ctx a
    let b ← operand ctx b
    let m ← Run.asInt a
    let n ← Run.asInt b
    keep dest (Word.ofInt (m * n))
  | .branch cond yes no =>
    let falsy := (← Run.decode (← operand ctx cond)).isFalsy
    steps (exec ctx) (if falsy then no else yes)
    return .flag !falsy
  | .protect all =>
    match ← protect (steps (exec ctx) all) with
    | .ok () => return .done
    | .error violation =>
      emit ("caught " ++ violation.message)
      return .caught violation
  | .trace v =>
    emit (← Run.shown (← operand ctx v))
    return .done
  | .isFalsy v => return .flag (← Run.decode (← operand ctx v)).isFalsy
  | .same a b =>
    let a ← operand ctx a
    let b ← operand ctx b
    return .flag (a = b)
  | .sameLayout a b =>
    let a ← operand ctx a
    return .flag (← Run.sameLayout a (← operand ctx b))
  | .sameTag v e =>
    let v ← operand ctx v
    let t ← type ctx e
    return .flag ((← Run.tagOf v) = t)
  | .hasRecord v =>
    let found ← Run.record? (← operand ctx v)
    return .flag found.isSome
  | .dump v => return .record (← Run.dump (← operand ctx v))
  | .dumpAll => return .records (← Run.dumpAll)
  | .allocateAgain v =>
    match ← (Run.record? (← operand ctx v) : Run _) with
    | none => Run.broken
    | some _ => Run.misuse .allocatedTwice
  | .recordKind ref => return .text (← Run.recordAt ref).kind.name
  | .counts =>
    let heap := (← get).machine.heap
    return .counts (RecordKind.all.map fun k => (k, heap.count k))
  | .limits => return .limits (← get).machine.limits
  | .propertyNames => return .names (← get).machine.types.names.toList
  | .format e =>
    let t ← type ctx e
    return .text (← Run.format t)
  | .forwardSlot owner index =>
    if owner = 0 then Run.misuse .nullOwner
    return .slot true owner index

end Exec

/-- Runs a step with at most `fuel` nested steps and calls. -/
def Step.run : Nat → Context → Step → Exec Answer
  | 0, _, _ => throw .exhausted
  | fuel + 1, ctx, .mk op dest => Exec.perform (Step.run fuel) fuel ctx dest op

/-- How a step of the top level ended. -/
structure Report where
  result : Except Fault Answer
  dirty : Bool
  heapSize : Nat
  numArgs : Nat
  trace : List String

namespace Session

def initial (m : Machine) : Session := ⟨m, []⟩

/-- Performs a step of the top level. A guarded step restores the argument stack on a violation. -/
def perform (s : Session) (fuel : Nat) (scope : TypeScope) (guarded : Bool) (step : Step) :
    Report × Session :=
  let s := { s with machine := { s.machine with trace := [] } }
  let act := step.run fuel ⟨scope, none⟩
  let (result, s) : Except Fault Answer × Session :=
    if guarded then
      match Exec.protect act s with
      | .ok (.ok a) s => (.ok a, s)
      | .ok (.error v) s => (.error (.violation v), s)
      | .error f s => (.error f, s)
    else
      match act s with
      | .ok a s => (.ok a, s)
      | .error f s => (.error f, s)
  let m := s.machine
  (⟨result, m.dirty, m.heap.size, m.args.length, m.trace.reverse⟩, s)

end Session

end Gradual
