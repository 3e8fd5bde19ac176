import Gradual.Program.Run
import Gradual.Proofs.Machine.Congruence

/-!
Programs as compositions. An operation of a program evaluates operands, performs operations of the machine and keeps
a value in a register; some run bodies and other steps, or take arguments off the stack. `Exec.Composition` lists what
is to be shown of actions so that it holds of all operations that do no more than the former (`perform_plain`), and
`Exec.Nesting` what it takes in addition to get it for the others (`perform`).
-/
namespace Gradual

def Session.withView (s t : Session) : Session :=
  ⟨s.machine.withStore (s.machine.withStack t.machine), s.registers⟩

/-- The operation neither takes arguments off the stack nor runs bodies or steps, and does not ask for the limits. -/
def Operation.Plain : Operation → Prop
  | .pop | .clearArgs | .call _ _ _ | .callUntyped _ | .callWith _ _ _ | .construct _ _ | .branch _ _ _ | .protect _
  | .limits => False
  | _ => True

namespace Exec

theorem lift_bind {α β : Type} (act : Run β) (next : β → Run α) :
    lift (act >>= next) = lift act >>= fun b => lift (next b) := by
  funext s
  change lift (EStateM.bind act next) s = EStateM.bind (lift act) (fun b => lift (next b)) s
  simp only [lift, EStateM.bind]
  cases act s.machine <;> rfl

theorem lift_protect {α : Type} (act : Run α) : lift (Run.protect act) = protect (lift act) := by
  funext s
  unfold protect lift Run.protect
  cases act s.machine with
  | ok a m => rfl
  | error f m => cases f <;> rfl

/-- What is to be shown of actions of a session, given that it holds of operations on the heap. -/
structure Composition (R : {α : Type} → Run α → Run α → Prop) (E : {α : Type} → Exec α → Prop) : Prop where
  operations : Run.Congruence @R
  quiet : ∀ {α : Type} {act : Run α}, R act act → E (lift act)
  bind : ∀ {α β : Type} {act : Exec β} {next : β → Exec α}, E act → (∀ b, E (next b)) → E (act >>= next)
  get : ∀ {α : Type} {next : Session → Exec α}, (∀ s t, next (s.withView t) = next s) → (∀ s, E (next s)) →
    E (get >>= next)
  put : ∀ (name : String) (w : Word), E (modify fun s => { s with registers := s.registers.put name w })
  emit : ∀ line : String, E (emit line)
  push : ∀ w : Word, E (lift (Run.pushArg w))
  protect : ∀ {α : Type} {act : Exec α}, E act → E (protect act)

namespace Composition

variable {α β ι : Type} {R : {α : Type} → Run α → Run α → Prop} {E : {α : Type} → Exec α → Prop}
  (c : Composition @R @E) {ctx : Context} {exec : Context → Step → Exec Answer}

include c

theorem pure (a : α) : E (pure a) := c.quiet (c.operations.pure a)

/-- An operation on the heap, and what comes after it. -/
theorem run {act : Run β} {next : β → Exec α} (self : c.operations.Self act) (rest : ∀ b, E (next b)) :
    E (liftM act >>= next) :=
  c.bind (c.quiet self) rest

theorem answers {act : Run β} {next : β → Answer} (self : c.operations.Self act) : E (do return next (← act)) :=
  c.run self fun _ => c.pure _

theorem discard {act : Exec β} (composed : E act) : E (discard act) := by
  change E (Function.const β PUnit.unit <$> act)
  rw [map_eq_pure_bind]
  exact c.bind composed fun _ => c.pure _

theorem forM {f : ι → Exec PUnit} (each : ∀ x, E (f x)) (xs : List ι) : E (xs.forM f) := by
  induction xs with
  | nil => exact c.pure _
  | cons x xs ih => exact c.bind (each x) fun _ => ih

theorem mapM {f : ι → Exec α} (each : ∀ x, E (f x)) (xs : List ι) : E (xs.mapM f) := by
  induction xs with
  | nil => exact c.pure _
  | cons x xs ih =>
    rw [List.mapM_cons]
    exact c.bind (each x) fun _ => c.bind ih fun _ => c.pure _

theorem evaluates (ctx : Context) (o : Operand) : E (Exec.operand ctx o) := by
  cases o with
  | word w => exact c.pure w
  | register name =>
    refine c.get (fun _ _ => rfl) fun s => ?_
    split
    · exact c.pure _
    · exact c.pure _
  | text text => exact c.quiet (c.operations.newString text)

theorem keep (dest : Option String) (w : Word) : E (Exec.keep dest w) := by
  cases dest with
  | none => exact c.answers (c.operations.shown w)
  | some name => exact c.bind (c.put name w) fun _ => c.answers (c.operations.shown w)

theorem givenCode (t : Child) (arity : Option Int) : E (Exec.givenCode t arity) := by
  unfold Exec.givenCode
  split
  · exact c.pure _
  · exact c.pure _
  · refine c.run (c.operations.node _) fun n => ?_
    split
    · exact c.pure _
    · exact c.pure _

theorem chain (id : PropId) (count : Nat) (w : Word) : c.operations.Self (Exec.chain id count w) := by
  induction count generalizing w with
  | zero => exact c.operations.pure w
  | succ count ih =>
    exact c.operations.bind (c.operations.newObject 0) fun o =>
      c.operations.bind (c.operations.setProp o id w) fun _ => ih o

theorem nestArray (count : Nat) (w : Word) : c.operations.Self (Exec.nestArray count w) := by
  induction count generalizing w with
  | zero => exact c.operations.pure w
  | succ count ih => exact c.operations.bind (c.operations.newArray [w]) fun o => ih o

theorem arrayAnswer (arr : Word) : c.operations.Self (Exec.arrayAnswer arr) :=
  c.operations.bind (c.operations.arrayOf arr) fun _ => c.operations.arrayState _

theorem numArgs : E Exec.numArgs := c.get (fun _ _ => rfl) fun _ => c.pure _

theorem steps (inner : ∀ step, E (Functor.discard (exec ctx step))) (all : List Step) :
    E (Exec.steps (exec ctx) all) :=
  c.forM inner all

/-- An operand, and what comes after it. -/
theorem operand {o : Operand} {next : Word → Exec α} (rest : ∀ w, E (next w)) : E (Exec.operand ctx o >>= next) :=
  c.bind (c.evaluates ctx o) rest

theorem operands {os : List Operand} {next : List Word → Exec α} (rest : ∀ ws, E (next ws)) :
    E (Exec.operands ctx os >>= next) :=
  c.bind (c.mapM (c.evaluates ctx) os) rest

theorem environment {os : Option (List Operand)} {next : Option (List Word) → Exec α} (rest : ∀ env, E (next env)) :
    E (Exec.environment ctx os >>= next) := by
  cases os with
  | none => exact c.bind (c.pure none) rest
  | some os => exact c.bind (c.operands fun _ => c.pure _) rest

theorem type {e : TypeExpr} {next : Child → Exec α} (rest : ∀ t, E (next t)) : E (Exec.type ctx e >>= next) :=
  c.bind (c.quiet (c.operations.build _)) rest

/-- A value that is kept in a register. -/
theorem keeps_word {dest : Option String} {act : Run Word} (self : c.operations.Self act) :
    E (do Exec.keep dest (← act)) :=
  c.run self fun w => c.keep dest w

theorem keeps_one {dest : Option String} {o : Operand} {act : Word → Run Word}
    (self : ∀ w, c.operations.Self (act w)) : E (do Exec.keep dest (← act (← Exec.operand ctx o))) :=
  c.operand fun w => c.keeps_word (self w)

theorem answers_one {o : Operand} {act : Word → Run β} {next : β → Answer}
    (self : ∀ w, c.operations.Self (act w)) : E (do return next (← act (← Exec.operand ctx o))) :=
  c.operand fun w => c.answers (self w)

/-- Whatever the bodies are, such an operation does not run them. -/
theorem perform_plain {fuel : Nat} {dest : Option String} {op : Operation} (plain : op.Plain) :
    E (perform exec fuel ctx dest op) := by
  have run := c.operations
  refine c.get (fun _ _ => rfl) fun s => ?_
  cases op with
  | pop | clearArgs | call | callUntyped | callWith | construct | branch | protect | limits => exact plain.elim
  | newObject n => exact c.keeps_word (run.newObject n)
  | literal e values =>
    refine c.type fun t => c.operands fun ws => ?_
    cases t with
    | none => exact c.quiet run.broken
    | some t => exact c.keeps_word (run.newLiteral t ws)
  | newArray elems => exact c.operands fun ws => c.keeps_word (run.newArray ws)
  | newString text => exact c.keeps_word (run.newString text)
  | newBox v => exact c.keeps_one run.newBox
  | newClosure e body arity env =>
    refine c.type fun t => c.bind (c.givenCode t arity) fun code => c.environment fun env => ?_
    exact c.keeps_word (run.newClosure t code body env)
  | newUntyped body env withoutCode =>
    refine c.environment fun env => ?_
    cases withoutCode with
    | true => exact c.run (run.misuse _) fun _ => c.keeps_word (run.newUntyped body env)
    | false => exact c.keeps_word (run.newUntyped body env)
  | newConstructor e proto body arity env =>
    refine c.type fun t => c.operand fun proto => c.bind (c.givenCode t arity) fun code => ?_
    exact c.environment fun env => c.keeps_word (run.newConstructor t proto code body env)
  | value v => exact c.operand fun w => c.keep dest w
  | get obj prop => exact c.operand fun o => c.run (run.resolve prop) fun id => c.keeps_word (run.getProp o id)
  | set obj v prop =>
    exact c.operand fun o => c.operand fun w => c.run (run.resolve prop) fun id => c.answers (run.setProp o id w)
  | getNamed obj name => exact c.keeps_one fun o => run.getNamed o name
  | setNamed obj v name => exact c.operand fun o => c.operand fun w => c.answers (run.setNamed o name w)
  | hasOwn obj prop => exact c.operand fun o => c.run (run.resolve prop) fun id => c.answers (run.hasOwn o id)
  | delete obj prop => exact c.operand fun o => c.run (run.resolve prop) fun id => c.answers (run.deleteProp o id)
  | keys obj => exact c.answers_one run.ownKeys
  | setPrototype obj proto => exact c.operand fun o => c.operand fun w => c.answers (run.setPrototype o w)
  | prototype obj => exact c.keeps_one run.prototypeOf
  | tagOf v =>
    refine c.operand fun w => c.run (run.tagOf w) fun t => ?_
    cases t with
    | none => exact c.pure _
    | some t => exact c.answers (run.format (some t))
  | fill obj stem count =>
    refine c.operand fun o => c.bind (c.forM (fun i => ?_) _) fun _ => c.pure _
    exact c.quiet (run.setNamed o (stem ++ toString i) (Word.ofInt (Int32.ofNat i)))
  | chain v prop count =>
    exact c.operand fun w => c.run (run.resolve prop) fun id => c.keeps_word (c.chain id count w)
  | nestArray v count => exact c.keeps_one (c.nestArray count)
  | arrayGet arr i => exact c.keeps_one fun arr => run.arrayGet arr i
  | arrayPut arr v i =>
    exact c.operand fun arr => c.operand fun w => c.run (run.arrayPut arr i w) fun _ => c.answers (c.arrayAnswer arr)
  | arrayPush arr v =>
    exact c.operand fun arr => c.operand fun w => c.run (run.arrayPush arr w) fun _ => c.answers (c.arrayAnswer arr)
  | arrayUnshift arr v =>
    exact c.operand fun arr => c.operand fun w => c.run (run.arrayUnshift arr w) fun _ => c.answers (c.arrayAnswer arr)
  | arrayPop arr =>
    exact c.operand fun arr => c.run (run.arrayPop arr) fun w => c.run (run.shown w) fun _ =>
      c.answers (c.arrayAnswer arr)
  | arrayShift arr =>
    exact c.operand fun arr => c.run (run.arrayShift arr) fun w => c.run (run.shown w) fun _ =>
      c.answers (c.arrayAnswer arr)
  | arraySize arr | arrayCapacity arr => exact c.answers_one run.arrayOf
  | stringOf v => exact c.answers_one run.stringOf
  | boxGet b => exact c.keeps_one run.boxGet
  | boxSet b v => exact c.operand fun b => c.operand fun w => c.answers (run.boxSet b w)
  | access b e => exact c.operand fun b => c.type fun t => c.keeps_word (run.accessBox b t)
  | accessInt b => exact c.answers_one run.accessInt
  | coerce v e => exact c.operand fun w => c.type fun t => c.keeps_word (run.coerce w t)
  | tryCoerce v e =>
    refine c.operand fun w => c.type fun t => c.bind ?_ fun result => ?_
    · change E (lift (Run.protect (Run.coerce w t)))
      rw [lift_protect]
      exact c.protect (c.quiet (run.coerce w t))
    · cases result with
      | ok w => exact c.keep dest w
      | error violation => exact c.pure _
  | exportClosure fn => exact c.keeps_one run.exportClosure
  | constructorPrototype fn => exact c.keeps_one run.constructorPrototype
  | push v => exact c.operand fun w => c.bind (c.push w) fun _ => c.numArgs
  | pushTimes v count => exact c.operand fun w => c.bind (c.forM c.push _) fun _ => c.numArgs
  | lastReturn => exact c.get (fun _ _ => rfl) fun s => c.keep dest _
  | setReturn v => exact c.operand fun w => c.answers (run.setReturn w)
  | add a b | multiply a b =>
    exact c.operand fun v => c.operand fun w => c.run (run.asInt v) fun _ => c.run (run.asInt w) fun _ => c.keep dest _
  | trace v =>
    exact c.operand fun w => c.run (run.shown w) fun line => c.bind (c.emit line) fun _ => c.pure _
  | isFalsy v => exact c.answers_one run.decode
  | same a b => exact c.operand fun v => c.operand fun w => c.pure _
  | sameLayout a b => exact c.operand fun v => c.operand fun w => c.answers (run.sameLayout v w)
  | sameTag v e => exact c.operand fun w => c.type fun t => c.answers (run.tagOf w)
  | hasRecord v => exact c.answers_one run.record?
  | dump v => exact c.answers_one run.dump
  | dumpAll => exact c.answers run.dumpAll
  | allocateAgain v =>
    refine c.operand fun w => c.run (run.record? w) fun found => ?_
    cases found with
    | none => exact c.quiet run.broken
    | some _ => exact c.quiet (run.misuse _)
  | recordKind ref => exact c.answers (run.recordAt ref)
  | counts | propertyNames => exact c.get (fun _ _ => rfl) fun s => c.pure _
  | format e => exact c.type fun t => c.answers (run.format t)
  | forwardSlot owner index =>
    dsimp only
    split
    · exact c.run (run.misuse _) fun _ => c.pure _
    · exact c.pure _

end Composition

structure Nesting (R : {α : Type} → Run α → Run α → Prop) (Q : {α : Type} → Run α → Prop)
    (E : {α : Type} → Exec α → Prop) : Prop extends Composition @R @E where
  calls : Run.Calling @R @Q
  lift : ∀ {α : Type} {act : Run α}, Q act → E (lift act)
  within : ∀ {α : Type} {act : Exec α} (regs : Registers), E act → Q (withRegisters regs act)
  clear : E (Exec.lift Run.clearArgs)

namespace Nesting

variable {R : {α : Type} → Run α → Run α → Prop} {Q : {α : Type} → Run α → Prop} {E : {α : Type} → Exec α → Prop}
  (c : Nesting @R @Q @E) {exec : Context → Step → Exec Answer} (inner : ∀ ctx step, E (discard (exec ctx step)))

include c

theorem pops (name : String) : E (do
    let w ← Run.popArg
    modify fun s => { s with registers := s.registers.put name w } : Exec Unit) :=
  c.bind (c.lift c.calls.popArg) fun w => c.put name w

include inner

theorem bodies (scope : TypeScope) (globals : Registers) : c.calls.Bodies (host exec scope globals) where
  typed body env recv args := by
    obtain ⟨pop, all, ret⟩ := body
    refine c.within _ (c.bind (c.steps (inner _) all) fun _ => ?_)
    cases ret with
    | none => exact c.pure _
    | some o => exact c.evaluates _ o
  untyped body env := by
    obtain ⟨pop, all, ret⟩ := body
    refine c.within _ (c.bind (c.forM c.pops pop) fun _ => c.bind (c.steps (inner _) all) fun _ => ?_)
    cases ret with
    | none => exact c.pure _
    | some o => exact c.operand fun w => c.quiet (c.operations.setReturn w)

/-- Any operation but the one that asks for the limits. -/
theorem perform {fuel : Nat} {ctx : Context} {dest : Option String} {op : Operation} (other : op ≠ .limits) :
    E (Exec.perform exec fuel ctx dest op) := by
  cases op with
  | limits => exact absurd rfl other
  | pop => exact c.get (fun _ _ => rfl) fun s => c.bind (c.lift c.calls.popArg) fun w => c.keep dest w
  | clearArgs => exact c.get (fun _ _ => rfl) fun s => c.bind c.clear fun _ => c.numArgs
  | call fn recv args =>
    refine c.get (fun _ _ => rfl) fun s => c.operand fun fn => c.operand fun recv => c.operands fun args => ?_
    exact c.bind (c.lift (c.calls.call (c.bodies inner _ _) fn recv args)) fun w => c.keep dest w
  | callUntyped fn =>
    refine c.get (fun _ _ => rfl) fun s => c.operand fun fn => ?_
    exact c.bind (c.lift (c.calls.callUntyped (c.bodies inner _ _) fn)) fun _ =>
      c.get (fun _ _ => rfl) fun s => c.keep dest _
  | callWith fn recv args =>
    refine c.get (fun _ _ => rfl) fun s => c.operand fun fn => c.operand fun recv => c.operands fun args => ?_
    exact c.bind (c.lift (c.calls.callWith (c.bodies inner _ _) fn recv args)) fun w => c.keep dest w
  | construct fn args =>
    refine c.get (fun _ _ => rfl) fun s => c.operand fun fn => c.operands fun args => ?_
    exact c.bind (c.lift (c.calls.construct (c.bodies inner _ _) fn args)) fun w => c.keep dest w
  | branch cond yes no =>
    refine c.get (fun _ _ => rfl) fun s => c.operand fun w => c.run (c.operations.decode w) fun v => ?_
    exact c.bind (c.steps (inner ctx) _) fun _ => c.pure _
  | protect all =>
    refine c.get (fun _ _ => rfl) fun s => c.bind (c.protect (c.steps (inner ctx) all)) fun result => ?_
    cases result with
    | ok => exact c.pure _
    | error violation => exact c.bind (c.emit _) fun _ => c.pure _
  | _ => exact c.perform_plain trivial

end Nesting

end Exec

end Gradual
