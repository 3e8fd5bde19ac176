import Gradual.Proofs.Program.Outcome

/-!
Steps of programs. A step is fit for the machine if its host has made up no references, passes proper types
only and stays off handles; the same goes for all steps inside. Main statement: fit steps are safe, whatever
they are nested in (`run_safe`). `perform_safe` goes through the operations.
-/
namespace Gradual

namespace Body

def steps : Body → List Step
  | .mk _ steps _ => steps

def ret : Body → Option Operand
  | .mk _ _ ret => ret

end Body

def Step.op : Step → Operation
  | .mk op _ => op

namespace Operation

def operands : Operation → List Operand
  | .newObject _ | .newString _ | .pop | .clearArgs | .lastReturn | .protect _ | .dumpAll | .recordKind _ | .counts
  | .limits | .propertyNames | .format _ | .forwardSlot _ _ => []
  | .newBox o | .value o | .get o _ | .getNamed o _ | .hasOwn o _ | .delete o _ | .keys o | .prototype o | .tagOf o
  | .fill o _ _ | .chain o _ _ | .nestArray o _ | .arrayGet o _ | .arrayPop o | .arrayShift o | .arraySize o
  | .arrayCapacity o | .stringOf o | .boxGet o | .access o _ | .accessInt o | .coerce o _ | .tryCoerce o _
  | .exportClosure o | .callUntyped o | .constructorPrototype o | .push o | .pushTimes o _ | .setReturn o
  | .branch o _ _ | .trace o | .isFalsy o | .sameTag o _ | .hasRecord o | .dump o | .allocateAgain o => [o]
  | .set a b _ | .setNamed a b _ | .setPrototype a b | .arrayPut a b _ | .arrayPush a b | .arrayUnshift a b
  | .boxSet a b | .add a b | .multiply a b | .same a b | .sameLayout a b => [a, b]
  | .literal _ os | .newArray os => os
  | .newClosure _ body _ env | .newUntyped body env _ => env.getD [] ++ body.ret.toList
  | .newConstructor _ proto body _ env => proto :: env.getD [] ++ body.ret.toList
  | .call fn recv args | .callWith fn recv args => fn :: recv :: args
  | .construct fn args => fn :: args

def types : Operation → List TypeExpr
  | .newClosure e _ _ _ | .newConstructor e _ _ _ _ | .access _ e | .coerce _ e | .tryCoerce _ e
  | .sameTag _ e | .format e => [e]
  | _ => []

def steps : Operation → List Step
  | .newClosure _ body _ _ | .newUntyped body _ _ | .newConstructor _ _ body _ _ => body.steps
  | .branch _ yes no => yes ++ no
  | .protect steps => steps
  | _ => []

/-- Operations on handles, which a host that holds values only does not have. -/
def usesHandles : Operation → Bool
  | .sameLayout _ _ | .allocateAgain _ | .recordKind _ => true
  | _ => false

end Operation

def Operand.Given : Operand → Prop
  | .word w => ∃ v, w.decode? = some v ∧ v.ref? = none
  | .register _ | .text _ => True

def TypeExpr.Builds (scope : TypeScope) (base : TypeStore) (e : TypeExpr) (P : Child → TypeStore → Prop) : Prop :=
  ∀ s, base.Extends s → Act.Ends (e.build scope) s P fun _ _ => True

/-- The host passes values and proper types. -/
inductive Operation.Fit (scope : TypeScope) (base : TypeStore) : Operation → Prop where
  | mk {op : Operation} (operands : ∀ o ∈ op.operands, o.Given)
      (types : ∀ e ∈ op.types, e.Builds scope base fun t s => ∀ u, t = some u → s.Proper u)
      (literal : ∀ e values, op = .literal e values → e.Builds scope base fun t s => ∃ u, t = some u ∧ s.Proper u)
      (handles : op.usesHandles = false) (steps : ∀ s ∈ op.steps, s.op.Fit scope base) : op.Fit scope base

structure Body.Fit (scope : TypeScope) (base : TypeStore) (body : Body) : Prop where
  steps : ∀ s ∈ body.steps, s.op.Fit scope base
  ret : ∀ o ∈ body.ret, o.Given

def TypeScope.setting (scope : TypeScope) (base : TypeStore) : Setting := ⟨base, Body.Fit scope base⟩

namespace Exec

variable {α : Type} {S : Setting} {scope : TypeScope} {base : TypeStore} {s : Session} {ctx : Context} {w : Word}
  {exec : Context → Step → Exec Answer}

def Reaches (ctx : Context) (m : Machine) : Prop := Registers.Hold (ctx.outer.getD []) m.heap

theorem safe_register (sound : s.Sound S) (outer : Reaches ctx s.machine) (name : String) :
    Safe S (register ctx name) s fun w m => m.heap.Genuine w := by
  refine .get ?_
  split
  next w own => exact .pure sound (sound.registers.lookup own)
  next =>
    refine .pure sound ?_
    cases regs : ctx.outer with
    | none => exact Heap.genuine_undefined
    | some globals =>
      rw [Reaches, regs] at outer
      cases top : globals.lookup name with
      | none => simpa [top] using Heap.genuine_undefined
      | some w => simpa [top] using outer.lookup top

theorem safe_operand {o : Operand} (given : o.Given) (sound : s.Sound S) (outer : Reaches ctx s.machine) :
    Safe S (operand ctx o) s fun w m => m.heap.Genuine w := by
  cases o with
  | word w =>
    obtain ⟨v, known, immediate⟩ := given
    exact .pure sound ⟨v, known, by simp [immediate]⟩
  | register name => exact safe_register sound outer name
  | text text => exact .lift sound ((Run.works_newString sound.machine.valid text).safe sound.machine (.newString text))

theorem safe_operands {os : List Operand} (given : ∀ o ∈ os, o.Given) (sound : s.Sound S)
    (outer : Reaches ctx s.machine) : Safe S (operands ctx os) s fun ws m => ∀ w ∈ ws, m.heap.Genuine w := by
  unfold operands
  induction os generalizing s with
  | nil => exact .pure sound (List.forall_mem_nil _)
  | cons o os ih =>
    obtain ⟨here, rest⟩ := List.forall_mem_cons.1 given
    rw [List.mapM_cons]
    refine (safe_operand here sound outer).bind fun w s₁ grows₁ sound₁ genuine => ?_
    refine (ih rest sound₁ (outer.grows grows₁)).bind fun ws s₂ grows₂ sound₂ genuine₂ => ?_
    exact .pure sound₂ (List.forall_mem_cons.2 ⟨grows₂.genuine genuine, genuine₂⟩)

theorem safe_environment {os : Option (List Operand)} (given : ∀ o ∈ os.getD [], o.Given) (sound : s.Sound S)
    (outer : Reaches ctx s.machine) :
    Safe S (environment ctx os) s fun env m => ∀ w ∈ env.getD [], m.heap.Genuine w := by
  cases os with
  | none => exact .pure sound (List.forall_mem_nil _)
  | some os =>
    exact (safe_operands given sound outer).bind fun ws s' _ sound' genuine => .pure sound' genuine

theorem safe_type {e : TypeExpr} {P : Child → TypeStore → Prop} (builds : e.Builds ctx.scope S.base P)
    (sound : s.Sound S) : Safe S (type ctx e) s fun t m => P t m.types :=
  .lift sound (Run.safe_build sound.machine (e.additive _ _) (builds _ sound.machine.types))

theorem safe_keep {dest : Option String} (sound : s.Sound S) (genuine : s.machine.heap.Genuine w) :
    Safe S (keep dest w) s fun _ _ => True := by
  have shown {s : Session} (sound : s.Sound S) (genuine : s.machine.heap.Genuine w) :
      Safe S (do return .value (← Run.shown w) : Exec Answer) s fun _ _ => True :=
    .run sound ((Run.reads_shown genuine).safe sound.machine) fun _ _ _ sound' _ => .pure sound' trivial
  cases dest with
  | none => exact shown sound genuine
  | some name =>
    have written : Session.Sound S { s with registers := s.registers.put name w } :=
      ⟨sound.machine, sound.registers.put genuine name⟩
    exact shown written genuine

theorem safe_emit (sound : s.Sound S) (line : String) : Safe S (emit line) s fun _ _ => True := by
  have traced := sound.machine.traced (line :: s.machine.trace)
  exact ⟨⟨traced.1, sound.grown traced⟩, trivial⟩

theorem safe_givenCode (sound : s.Sound S) (t : Child) (arity : Option Int) :
    Safe S (givenCode t arity) s fun _ _ => True := by
  unfold givenCode
  split
  · exact .pure sound trivial
  · exact .pure sound trivial
  next t =>
    have read : Run.Reads (Run.node t) s.machine fun _ => True := ⟨rfl, trivial⟩
    refine .run sound (read.safe sound.machine) fun n s' _ sound' _ => ?_
    split <;> exact .pure sound' trivial

def StepsSafe (scope : TypeScope) (base : TypeStore) (exec : Context → Step → Exec Answer) : Prop :=
  ∀ {outer : Option Registers} {step : Step} {s : Session}, step.op.Fit scope base → s.Sound (scope.setting base) →
    Reaches ⟨scope, outer⟩ s.machine → Safe (scope.setting base) (exec ⟨scope, outer⟩ step) s fun _ _ => True

theorem safe_steps {outer : Option Registers} {all : List Step} (inner : StepsSafe scope base exec)
    (fit : ∀ step ∈ all, step.op.Fit scope base) (sound : s.Sound (scope.setting base))
    (reaches : Reaches ⟨scope, outer⟩ s.machine) :
    Safe (scope.setting base) (steps (exec ⟨scope, outer⟩) all) s fun _ _ => True :=
  .forM sound fun step member _ grows sound' => (inner (fit step member) sound' (reaches.grows grows)).discard

theorem safe_popInto (sound : s.Sound S) (name : String) :
    Safe S (do
      let w ← Run.popArg
      modify fun s => { s with registers := s.registers.put name w }) s fun _ _ => True :=
  .run sound (Run.safe_popArg sound.machine) fun _ _ _ sound' genuine =>
    ⟨⟨.refl sound'.machine.valid, sound'.machine, sound'.registers.put genuine name⟩, trivial⟩

theorem hold_captured {env : Option (List Word)} {h : Heap} (genuine : ∀ w ∈ env.getD [], h.Genuine w) :
    (capturedRegisters env).Hold h :=
  Registers.hold_zipIdx genuine fun i => "e" ++ toString i

theorem host_safe {globals : Registers} {m : Machine} (inner : StepsSafe scope base exec)
    (hold : globals.Hold m.heap) : Run.HostSafe (scope.setting base) (host exec scope globals) m where
  typed {m' body env recv args} grows sound fit captured receiver genuine := by
    obtain ⟨pop, all, ret⟩ := body
    have reaches : Reaches ⟨scope, some globals⟩ m' := hold.grows grows
    apply Safe.within
    have started : Session.Sound (scope.setting base)
        ⟨m', ("recv", recv) :: argumentRegisters args ++ capturedRegisters env⟩ :=
      ⟨sound, .append (List.forall_mem_cons.2 ⟨receiver, Registers.hold_zipIdx genuine toString⟩)
        (hold_captured captured)⟩
    refine (safe_steps inner fit.steps started reaches).bind fun _ s' grows' sound' _ => ?_
    cases ret with
    | none => exact .pure sound' Heap.genuine_undefined
    | some o => exact safe_operand (fit.ret o rfl) sound' (reaches.grows grows')
  untyped {m' body env} grows sound fit captured := by
    obtain ⟨pop, all, ret⟩ := body
    have reaches : Reaches ⟨scope, some globals⟩ m' := hold.grows grows
    apply Safe.within
    have started : Session.Sound (scope.setting base) ⟨m', capturedRegisters env⟩ :=
      ⟨sound, hold_captured captured⟩
    refine (Safe.forM started fun name _ _ _ sound₁ => safe_popInto sound₁ name).bind fun _ s₁ grows₁ sound₁ _ => ?_
    refine (safe_steps inner fit.steps sound₁ (reaches.grows grows₁)).bind fun _ s₂ grows₂ sound₂ _ => ?_
    cases ret with
    | none => exact .pure sound₂ trivial
    | some o =>
      refine (safe_operand (fit.ret o rfl) sound₂ (reaches.grows (grows₁.trans grows₂))).bind
        fun w s₃ _ sound₃ genuine => ?_
      exact .lift sound₃ (Run.safe_setReturn sound₃.machine genuine)

section

variable {outer : Option Registers} {dest : Option String} {β : Type} {act : Run β} {mid : β → Machine → Prop}

/-- Evaluates an operand and goes on with the value. -/
theorem Safe.operand {o : Operand} {next : Word → Exec α} {ok : α → Machine → Prop} (given : o.Given)
    (sound : s.Sound S) (reaches : Reaches ctx s.machine)
    (rest : ∀ w s', s.machine.Grows s'.machine → s'.Sound S → Reaches ctx s'.machine → s'.machine.heap.Genuine w →
      Safe S (next w) s' ok) : Safe S (operand ctx o >>= next) s ok :=
  (safe_operand given sound reaches).bind fun w s' grows sound' genuine =>
    rest w s' grows sound' (reaches.grows grows) genuine

/-- Evaluates two operands and goes on with the values. -/
theorem Safe.two {a b : Operand} {next : Word → Word → Exec α} {ok : α → Machine → Prop}
    (given : ∀ o ∈ [a, b], o.Given) (sound : s.Sound S) (reaches : Reaches ctx s.machine)
    (rest : ∀ v w s', s'.Sound S → s'.machine.heap.Genuine v → s'.machine.heap.Genuine w → Safe S (next v w) s' ok) :
    Safe S (Exec.operand ctx a >>= fun v => Exec.operand ctx b >>= fun w => next v w) s ok := by
  obtain ⟨first, second⟩ := List.forall_mem_cons.1 given
  refine .operand first sound reaches fun v s₁ _ sound₁ reaches₁ genuine => ?_
  refine .operand (List.forall_mem_singleton.1 second) sound₁ reaches₁ fun w s₂ grows₂ sound₂ _ genuine₂ => ?_
  exact rest v w s₂ sound₂ (grows₂.genuine genuine) genuine₂

/-- Evaluates an operand and finds a property for it. -/
theorem Safe.property {o : Operand} {prop : PropRef} {next : Word → PropId → Exec α} {ok : α → Machine → Prop}
    (given : ∀ x ∈ [o], x.Given) (sound : s.Sound S) (reaches : Reaches ctx s.machine)
    (rest : ∀ w id s', s'.Sound S → s'.machine.heap.Genuine w → Safe S (next w id) s' ok) :
    Safe S (Exec.operand ctx o >>= fun w => liftM (Run.resolve prop) >>= fun id => next w id) s ok := by
  refine .operand (List.forall_mem_singleton.1 given) sound reaches fun w s₁ _ sound₁ _ genuine => ?_
  refine .run sound₁ (Run.safe_resolve sound₁.machine prop) fun id s₂ grows₂ sound₂ _ => ?_
  exact rest w id s₂ sound₂ (grows₂.genuine genuine)

/-- Evaluates an operand and builds a type for it. -/
theorem Safe.typed {o : Operand} {e : TypeExpr} {next : Word → Child → Exec α} {ok : α → Machine → Prop}
    (given : ∀ x ∈ [o], x.Given)
    (builds : e.Builds ctx.scope S.base fun t types => ∀ u, t = some u → types.Proper u) (sound : s.Sound S)
    (reaches : Reaches ctx s.machine)
    (rest : ∀ w t s', s'.Sound S → s'.machine.heap.Genuine w → (∀ u, t = some u → s'.machine.types.Proper u) →
      Safe S (next w t) s' ok) :
    Safe S (Exec.operand ctx o >>= fun w => type ctx e >>= fun t => next w t) s ok := by
  refine .operand (List.forall_mem_singleton.1 given) sound reaches fun w s₁ _ sound₁ _ genuine => ?_
  refine (safe_type builds sound₁).bind fun t s₂ grows₂ sound₂ proper => ?_
  exact rest w t s₂ sound₂ (grows₂.genuine genuine) proper

/-- Evaluates what is called, its receiver and its arguments. -/
theorem Safe.call {fn recv : Operand} {args : List Operand} {next : Word → Word → List Word → Exec α}
    {ok : α → Machine → Prop} (given : ∀ o ∈ fn :: recv :: args, o.Given) (sound : s.Sound S)
    (reaches : Reaches ctx s.machine)
    (rest : ∀ fn recv args s', s.machine.Grows s'.machine → s'.Sound S → s'.machine.heap.Genuine fn →
      s'.machine.heap.Genuine recv → (∀ w ∈ args, s'.machine.heap.Genuine w) → Safe S (next fn recv args) s' ok) :
    Safe S (Exec.operand ctx fn >>= fun fn => Exec.operand ctx recv >>= fun recv =>
      operands ctx args >>= fun args => next fn recv args) s ok := by
  obtain ⟨fn_given, rest_given⟩ := List.forall_mem_cons.1 given
  obtain ⟨recv_given, args_given⟩ := List.forall_mem_cons.1 rest_given
  refine .operand fn_given sound reaches fun fn s₁ grows₁ sound₁ reaches₁ callee => ?_
  refine .operand recv_given sound₁ reaches₁ fun recv s₂ grows₂ sound₂ reaches₂ receiver => ?_
  refine (safe_operands args_given sound₂ reaches₂).bind fun args s₃ grows₃ sound₃ genuine => ?_
  exact rest fn recv args s₃ ((grows₁.trans grows₂).trans grows₃) sound₃ ((grows₂.trans grows₃).genuine callee)
    (grows₃.genuine receiver) genuine

theorem Safe.keeps {act : Run Word} (sound : s.Sound S)
    (safe : Run.Safe S act s.machine fun w m => m.heap.Genuine w) :
    Safe S (do keep dest (← act)) s fun _ _ => True :=
  .run sound safe fun _ _ _ sound' genuine => safe_keep sound' genuine

theorem Safe.answers {next : β → Exec Answer} (sound : s.Sound S) (safe : Run.Safe S act s.machine mid)
    (done : ∀ b, ∃ answer, next b = Pure.pure answer := by exact fun _ => ⟨_, rfl⟩) :
    Safe S (liftM act >>= next) s fun _ _ => True := by
  refine .run sound safe fun b s' _ sound' _ => ?_
  obtain ⟨answer, eq⟩ := done b
  rw [eq]
  exact .pure sound' trivial

/-- Keeps what an action makes of one operand. -/
theorem Safe.keeps_one {o : Operand} {act : Word → Run Word} (given : ∀ x ∈ [o], x.Given) (sound : s.Sound S)
    (reaches : Reaches ctx s.machine)
    (safe : ∀ {m w}, m.Sound S → m.heap.Genuine w → Run.Safe S (act w) m fun w m => m.heap.Genuine w) :
    Safe S (do keep dest (← act (← Exec.operand ctx o))) s fun _ _ => True :=
  .operand (List.forall_mem_singleton.1 given) sound reaches fun _ _ _ sound' _ genuine =>
    .keeps sound' (safe sound'.machine genuine)

/-- Answers with what an action says of one operand. -/
theorem Safe.answers_one {o : Operand} {act : Word → Run β} {next : β → Exec Answer} (given : ∀ x ∈ [o], x.Given)
    (sound : s.Sound S) (reaches : Reaches ctx s.machine)
    (safe : ∀ {m w}, m.Sound S → m.heap.Genuine w → Run.Safe S (act w) m fun _ _ => True)
    (done : ∀ b, ∃ answer, next b = Pure.pure answer := by exact fun _ => ⟨_, rfl⟩) :
    Safe S (do next (← act (← Exec.operand ctx o))) s fun _ _ => True :=
  .operand (List.forall_mem_singleton.1 given) sound reaches fun _ _ _ sound' _ genuine =>
    .answers sound' (safe sound'.machine genuine) done

theorem chain_safe {id : PropId} {m : Machine} (count : Nat) (sound : m.Sound S) (genuine : m.heap.Genuine w) :
    Run.Safe S (chain id count w) m fun w m => m.heap.Genuine w := by
  induction count generalizing m w with
  | zero => exact .pure sound genuine
  | succ count ih =>
    refine ((Run.works_newObject sound.valid 0).safe sound (.newObject 0)).bind
      fun o m₁ grows₁ sound₁ object => ?_
    have genuine₁ := grows₁.genuine genuine
    refine ((Run.works_setProp sound₁.valid object genuine₁ id).safe sound₁ (.setProp object genuine₁ id)).bind
      fun _ m₂ grows₂ sound₂ _ => ?_
    exact ih sound₂ (grows₂.genuine object)

theorem nestArray_safe {m : Machine} (count : Nat) (sound : m.Sound S) (genuine : m.heap.Genuine w) :
    Run.Safe S (nestArray count w) m fun w m => m.heap.Genuine w := by
  induction count generalizing m w with
  | zero => exact .pure sound genuine
  | succ count ih =>
    have genuine : ∀ x ∈ [w], m.heap.Genuine x := List.forall_mem_singleton.2 genuine
    refine ((Run.works_newArray sound.valid genuine).safe sound (.newArray genuine)).bind
      fun o m₁ grows₁ sound₁ array => ?_
    exact ih sound₁ array

theorem safe_arrayAnswer {m : Machine} (sound : m.Sound S) (array : m.heap.Genuine w) :
    Run.Safe S (arrayAnswer w) m fun _ _ => True :=
  ((Run.reads_arrayOf sound.valid array).bind fun _ holds => Run.reads_arrayState holds).safe sound

/-- An operation on an array, and what the array is like then. -/
theorem Safe.array {arr : Word} {next : β → ArrayState → Answer} (sound : s.Sound S)
    (array : s.machine.heap.Genuine arr) (safe : Run.Safe S act s.machine mid) :
    Safe S (do
      let b ← act
      return next b (← arrayAnswer arr)) s fun _ _ => True :=
  .run sound safe fun _ _ grows sound' _ => .answers sound' (safe_arrayAnswer sound'.machine (grows.genuine array))

/-- An element is taken from an array. -/
theorem Safe.takes {o : Operand} {act : Word → Run Word} (given : ∀ x ∈ [o], x.Given) (sound : s.Sound S)
    (reaches : Reaches ctx s.machine)
    (safe : ∀ {m w}, m.Sound S → m.heap.Genuine w → Run.Safe S (act w) m fun w m => m.heap.Genuine w) :
    Safe S (do
      let arr ← Exec.operand ctx o
      let w ← act arr
      return Answer.taken (← Run.shown w) (← arrayAnswer arr)) s fun _ _ => True := by
  refine .operand (List.forall_mem_singleton.1 given) sound reaches fun arr s₁ _ sound₁ _ array => ?_
  refine .run sound₁ (safe sound₁.machine array) fun w s₂ grows₂ sound₂ genuine => ?_
  exact .array sound₂ (grows₂.genuine array) ((Run.reads_shown genuine).safe sound₂.machine)

theorem safe_numArgs (sound : s.Sound S) : Safe S numArgs s fun _ _ => True := .get (.pure sound trivial)

theorem perform_safe {fuel : Nat} {op : Operation} (inner : StepsSafe scope base exec)
    (int : base.Proper Prim.int.typeId) (fit : op.Fit scope base) (sound : s.Sound (scope.setting base))
    (reaches : Reaches ⟨scope, outer⟩ s.machine) :
    Safe (scope.setting base) (perform exec fuel ⟨scope, outer⟩ dest op) s fun _ _ => True := by
  have globals : Registers.Hold (outer.getD s.registers) s.machine.heap := by
    cases outer with
    | none => exact sound.registers
    | some regs => exact reaches
  have bodies := host_safe inner globals
  obtain ⟨operands, types, literal, handles, steps⟩ := fit
  refine .get ?_
  cases op with
  | newObject n => exact .keeps sound ((Run.works_newObject sound.machine.valid n).safe sound.machine (.newObject n))
  | literal e values =>
    refine (safe_type (literal e values rfl) sound).bind fun t s₁ grows₁ sound₁ built => ?_
    refine (safe_operands operands sound₁ (reaches.grows grows₁)).bind fun ws s₂ grows₂ sound₂ genuine => ?_
    obtain ⟨u, rfl, proper⟩ := built
    have proper₂ := grows₂.proper proper
    exact .keeps sound₂ ((Run.works_newLiteral sound₂.machine.valid proper₂ genuine).safe sound₂.machine
      (.newLiteral proper₂ genuine))
  | newArray elems =>
    refine (safe_operands operands sound reaches).bind fun ws s₁ grows₁ sound₁ genuine => ?_
    exact .keeps sound₁ ((Run.works_newArray sound₁.machine.valid genuine).safe sound₁.machine (.newArray genuine))
  | newString text =>
    exact .keeps sound ((Run.works_newString sound.machine.valid text).safe sound.machine (.newString text))
  | newBox v =>
    exact .keeps_one operands sound reaches fun sound genuine =>
      (Run.works_newBox sound.valid genuine).safe sound (.newBox genuine)
  | newClosure e body arity env =>
    obtain ⟨env_given, ret_given⟩ := List.forall_mem_append.1 operands
    have runs : Body.Fit scope base body := ⟨steps, fun o member => ret_given o (Option.mem_toList.2 member)⟩
    refine (safe_type (types e List.mem_cons_self) sound).bind fun t s₁ grows₁ sound₁ proper => ?_
    refine (safe_givenCode sound₁ t arity).bind fun code s₂ grows₂ sound₂ _ => ?_
    refine (safe_environment env_given sound₂ (reaches.grows (grows₁.trans grows₂))).bind
      fun env s₃ grows₃ sound₃ captured => ?_
    have proper₃ : ∀ u, t = some u → s₃.machine.types.Proper u :=
      fun u same => (grows₂.trans grows₃).proper (proper u same)
    refine .keeps sound₃ ((Run.works_newClosure sound₃.machine.valid proper₃ ?_).safe sound₃.machine
      (.newClosure proper₃ code body env))
    exact fun u sig arity same shape count => .typed (proper₃ u same) shape count runs captured
  | newUntyped body env withoutCode =>
    obtain ⟨env_given, ret_given⟩ := List.forall_mem_append.1 operands
    have runs : Body.Fit scope base body := ⟨steps, fun o member => ret_given o (Option.mem_toList.2 member)⟩
    refine (safe_environment env_given sound reaches).bind fun env s₁ grows₁ sound₁ captured => ?_
    cases withoutCode with
    | true => exact .misuse sound₁ trivial
    | false =>
      exact .keeps sound₁ ((Run.works_newUntyped sound₁.machine.valid (.untyped runs captured)).safe sound₁.machine
        (.newUntyped body env))
  | newConstructor e proto body arity env =>
    obtain ⟨proto_given, rest⟩ := List.forall_mem_cons.1 operands
    obtain ⟨env_given, ret_given⟩ := List.forall_mem_append.1 rest
    have runs : Body.Fit scope base body := ⟨steps, fun o member => ret_given o (Option.mem_toList.2 member)⟩
    refine (safe_type (types e List.mem_cons_self) sound).bind fun t s₁ grows₁ sound₁ proper => ?_
    refine .operand proto_given sound₁ (reaches.grows grows₁) fun proto s₂ grows₂ sound₂ reaches₂ link => ?_
    refine (safe_givenCode sound₂ t arity).bind fun code s₃ grows₃ sound₃ _ => ?_
    refine (safe_environment env_given sound₃ (reaches₂.grows grows₃)).bind fun env s₄ grows₄ sound₄ captured => ?_
    have proper₄ : ∀ u, t = some u → s₄.machine.types.Proper u :=
      fun u same => ((grows₂.trans grows₃).trans grows₄).proper (proper u same)
    have link₄ := (grows₃.trans grows₄).genuine link
    exact .keeps sound₄ ((Run.works_newConstructor sound₄.machine.valid proper₄ link₄ (fun _ => .untyped runs captured)
      fun u sig arity same shape count => .typed (proper₄ u same) shape count runs captured).safe sound₄.machine
        (.newConstructor proper₄ link₄ code body env))
  | value v =>
    exact .operand (List.forall_mem_singleton.1 operands) sound reaches fun _ _ _ sound' _ genuine =>
      safe_keep sound' genuine
  | get obj prop =>
    refine .property operands sound reaches fun w id s₁ sound₁ object => ?_
    exact .keeps sound₁ ((Run.reads_getProp sound₁.machine.valid object id).safe_word sound₁.machine)
  | set obj v prop =>
    refine .two operands sound reaches fun obj w s₁ sound₁ object genuine => ?_
    refine .run sound₁ (Run.safe_resolve sound₁.machine prop) fun id s₂ grows₂ sound₂ _ => ?_
    exact .answers sound₂ ((Run.works_setProp sound₂.machine.valid (grows₂.genuine object) (grows₂.genuine genuine)
      id).safe sound₂.machine (.setProp (grows₂.genuine object) (grows₂.genuine genuine) id))
  | getNamed obj name =>
    exact .keeps_one operands sound reaches fun sound object => Run.safe_getNamed sound object name
  | setNamed obj v name =>
    refine .two operands sound reaches fun obj w s₁ sound₁ object genuine => ?_
    exact .answers sound₁ (Run.safe_setNamed sound₁.machine object genuine name)
  | hasOwn obj prop =>
    refine .property operands sound reaches fun w id s₁ sound₁ object => ?_
    exact .answers sound₁ ((Run.reads_hasOwn sound₁.machine.valid object id).safe sound₁.machine)
  | delete obj prop =>
    refine .property operands sound reaches fun w id s₁ sound₁ object => ?_
    exact .answers sound₁
      ((Run.works_deleteProp sound₁.machine.valid object id).safe sound₁.machine (.deleteProp object id))
  | keys obj =>
    exact .answers_one operands sound reaches (fun sound object => (Run.reads_ownKeys sound.valid object).safe sound)
  | setPrototype obj proto =>
    refine .two operands sound reaches fun obj w s₁ sound₁ object genuine => ?_
    exact .answers sound₁ ((Run.works_setPrototype sound₁.machine.valid object genuine).safe sound₁.machine
      (.setPrototype object genuine))
  | prototype obj =>
    exact .keeps_one operands sound reaches fun sound object =>
      (Run.reads_prototypeOf sound.valid object).safe_word sound
  | tagOf v =>
    refine .operand (List.forall_mem_singleton.1 operands) sound reaches fun w s₁ grows₁ sound₁ reaches₁ genuine => ?_
    refine .run sound₁ ((Run.reads_tagOf genuine).safe sound₁.machine) fun t s₂ grows₂ sound₂ _ => ?_
    cases t with
    | none => exact .pure sound₂ trivial
    | some t => exact .answers sound₂ ((Run.reads_format _).safe sound₂.machine)
  | fill obj stem count =>
    refine .operand (List.forall_mem_singleton.1 operands) sound reaches fun w s₁ grows₁ sound₁ reaches₁ object => ?_
    refine (Safe.forM sound₁ fun i _ s₂ grows₂ sound₂ => ?_).bind fun _ s₃ _ sound₃ _ => .pure sound₃ trivial
    exact .lift sound₂ (Run.safe_setNamed sound₂.machine (grows₂.genuine object) (Heap.genuine_ofInt _) _)
  | chain v prop count =>
    refine .property operands sound reaches fun w id s₁ sound₁ genuine => ?_
    exact .keeps sound₁ (chain_safe count sound₁.machine genuine)
  | nestArray v count =>
    exact .keeps_one operands sound reaches fun sound genuine => nestArray_safe count sound genuine
  | arrayGet arr i =>
    exact .keeps_one operands sound reaches fun sound array => (Run.reads_arrayGet sound.valid array i).safe_word sound
  | arrayPut arr v i =>
    refine .two operands sound reaches fun arr w s₁ sound₁ array genuine => ?_
    exact .array sound₁ array ((Run.works_arrayPut sound₁.machine.valid array genuine i).safe sound₁.machine
      (.arrayPut array genuine i))
  | arrayPush arr v =>
    refine .two operands sound reaches fun arr w s₁ sound₁ array genuine => ?_
    exact .array sound₁ array ((Run.works_arrayPush sound₁.machine.valid array genuine).safe sound₁.machine
      (.arrayPush array genuine))
  | arrayUnshift arr v =>
    refine .two operands sound reaches fun arr w s₁ sound₁ array genuine => ?_
    exact .array sound₁ array ((Run.works_arrayUnshift sound₁.machine.valid array genuine).safe sound₁.machine
      (.arrayUnshift array genuine))
  | arrayPop arr =>
    exact .takes operands sound reaches fun sound array =>
      (Run.works_arrayPop sound.valid array).safe sound (.arrayPop array)
  | arrayShift arr =>
    exact .takes operands sound reaches fun sound array =>
      (Run.works_arrayShift sound.valid array).safe sound (.arrayShift array)
  | arraySize arr =>
    exact .answers_one operands sound reaches
      (fun sound array => ((Run.reads_arrayOf sound.valid array).mono fun _ _ => trivial).safe sound)
  | arrayCapacity arr =>
    exact .answers_one operands sound reaches
      (fun sound array => ((Run.reads_arrayOf sound.valid array).mono fun _ _ => trivial).safe sound)
  | stringOf v =>
    exact .answers_one operands sound reaches (fun sound genuine => (Run.reads_stringOf genuine).safe sound)
  | boxGet b =>
    exact .keeps_one operands sound reaches fun sound box => (Run.reads_boxGet sound.valid box).safe_word sound
  | boxSet b v =>
    refine .two operands sound reaches fun obj w s₁ sound₁ object genuine => ?_
    exact .answers sound₁ ((Run.works_boxSet sound₁.machine.valid object genuine).safe sound₁.machine
      (.boxSet object genuine))
  | access b e =>
    refine .typed operands (types e List.mem_cons_self) sound reaches fun b t s₁ sound₁ box proper => ?_
    exact .keeps sound₁ (Run.safe_accessBox sound₁.machine box proper)
  | accessInt b =>
    exact .answers_one operands sound reaches fun sound box => Run.safe_accessInt sound box int
  | coerce v e =>
    refine .typed operands (types e List.mem_cons_self) sound reaches fun w t s₁ sound₁ genuine proper => ?_
    exact .keeps sound₁ (Run.safe_coerce sound₁.machine genuine proper)
  | tryCoerce v e =>
    refine .typed operands (types e List.mem_cons_self) sound reaches fun w t s₁ sound₁ genuine proper => ?_
    refine .run sound₁ (Run.safe_coerce sound₁.machine genuine proper).protect fun result s₂ _ sound₂ kept => ?_
    cases result with
    | ok w => exact safe_keep sound₂ (kept w rfl)
    | error violation => exact .pure sound₂ trivial
  | exportClosure fn =>
    refine .keeps_one operands sound reaches fun sound genuine => ?_
    exact (Run.works_exportClosure sound.valid genuine fun ref r t found callable tag =>
      .exporting found callable tag).safe sound (.exportClosure genuine)
  | call fn recv args =>
    refine .call operands sound reaches fun fn recv args s₁ grows₁ sound₁ callee receiver genuine => ?_
    exact .keeps sound₁ (Run.safe_call (bodies.grows grows₁) sound₁.machine callee receiver genuine)
  | callUntyped fn =>
    refine .operand (List.forall_mem_singleton.1 operands) sound reaches fun fn s₁ grows₁ sound₁ reaches₁ callee => ?_
    refine .run sound₁ (Run.safe_callUntyped (bodies.grows grows₁) sound₁.machine callee)
      fun _ s₂ grows₂ sound₂ _ => ?_
    exact .get (safe_keep sound₂ sound₂.machine.lastReturn)
  | callWith fn recv args =>
    refine .call operands sound reaches fun fn recv args s₁ grows₁ sound₁ callee receiver genuine => ?_
    exact .keeps sound₁ (Run.safe_callWith (bodies.grows grows₁) sound₁.machine callee receiver genuine)
  | construct fn args =>
    obtain ⟨fn_given, args_given⟩ := List.forall_mem_cons.1 operands
    refine .operand fn_given sound reaches fun fn s₁ grows₁ sound₁ reaches₁ callee => ?_
    refine (safe_operands args_given sound₁ reaches₁).bind fun args s₂ grows₂ sound₂ genuine => ?_
    exact .keeps sound₂ (Run.safe_construct (bodies.grows (grows₁.trans grows₂)) sound₂.machine
      (grows₂.genuine callee) genuine)
  | constructorPrototype fn =>
    exact .keeps_one operands sound reaches fun sound genuine =>
      (Run.reads_constructorPrototype sound.valid genuine).safe_word sound
  | push v =>
    refine .operand (List.forall_mem_singleton.1 operands) sound reaches fun w s₁ grows₁ sound₁ reaches₁ genuine => ?_
    exact .run sound₁ (Run.safe_pushArg sound₁.machine genuine) fun _ s₂ _ sound₂ _ => safe_numArgs sound₂
  | pushTimes v count =>
    refine .operand (List.forall_mem_singleton.1 operands) sound reaches fun w s₁ grows₁ sound₁ reaches₁ genuine => ?_
    refine (Safe.forM sound₁ fun x member s₂ grows₂ sound₂ => ?_).bind fun _ s₃ _ sound₃ _ => safe_numArgs sound₃
    cases List.eq_of_mem_replicate member
    exact .lift sound₂ (Run.safe_pushArg sound₂.machine (grows₂.genuine genuine))
  | pop => exact .keeps sound (Run.safe_popArg sound.machine)
  | clearArgs => exact .run sound (Run.safe_clearArgs sound.machine) fun _ s₁ _ sound₁ _ => safe_numArgs sound₁
  | lastReturn => exact .get (safe_keep sound sound.machine.lastReturn)
  | setReturn v =>
    refine .operand (List.forall_mem_singleton.1 operands) sound reaches fun w s₁ grows₁ sound₁ reaches₁ genuine => ?_
    exact .answers sound₁ (Run.safe_setReturn sound₁.machine genuine)
  | add a b | multiply a b =>
    refine .two operands sound reaches fun v w s₁ sound₁ left right => ?_
    refine .run sound₁ ((Run.reads_asInt left).safe sound₁.machine) fun _ s₂ grows₂ sound₂ _ => ?_
    refine .run sound₂ ((Run.reads_asInt (grows₂.genuine right)).safe sound₂.machine) fun _ s₃ grows₃ sound₃ _ => ?_
    exact safe_keep sound₃ (Heap.genuine_ofInt _)
  | branch cond yes no =>
    refine .operand (List.forall_mem_singleton.1 operands) sound reaches fun w s₁ grows₁ sound₁ reaches₁ genuine => ?_
    refine .run sound₁ ((Run.reads_decode genuine).safe sound₁.machine) fun v s₂ grows₂ sound₂ _ => ?_
    obtain ⟨yes_fit, no_fit⟩ := List.forall_mem_append.1 steps
    refine (safe_steps inner ?_ sound₂ (reaches₁.grows grows₂)).bind fun _ s₃ _ sound₃ _ => .pure sound₃ trivial
    split
    · exact no_fit
    · exact yes_fit
  | protect all =>
    refine (safe_steps inner steps sound reaches).protect.bind fun result s₁ grows₁ sound₁ _ => ?_
    cases result with
    | ok => exact .pure sound₁ trivial
    | error violation => exact (safe_emit sound₁ _).bind fun _ s₂ _ sound₂ _ => .pure sound₂ trivial
  | trace v =>
    refine .operand (List.forall_mem_singleton.1 operands) sound reaches fun w s₁ grows₁ sound₁ reaches₁ genuine => ?_
    refine .run sound₁ ((Run.reads_shown genuine).safe sound₁.machine) fun line s₂ _ sound₂ _ => ?_
    exact (safe_emit sound₂ line).bind fun _ s₃ _ sound₃ _ => .pure sound₃ trivial
  | isFalsy v =>
    exact .answers_one operands sound reaches
      fun sound genuine => ((Run.reads_decode genuine).mono fun _ _ => trivial).safe sound
  | same a b => exact .two operands sound reaches fun v w s₁ sound₁ _ _ => .pure sound₁ trivial
  | sameTag v e =>
    refine .typed operands (types e List.mem_cons_self) sound reaches fun w t s₁ sound₁ genuine _ => ?_
    exact .answers sound₁ ((Run.reads_tagOf genuine).safe sound₁.machine)
  | hasRecord v =>
    exact .answers_one operands sound reaches
      fun sound genuine => ((Run.reads_record? genuine).mono fun _ _ => trivial).safe sound
  | dump v => exact .answers_one operands sound reaches fun sound genuine => (Run.reads_dump sound genuine).safe sound
  | dumpAll => exact .answers sound ((Run.reads_dumpAll sound.machine).safe sound.machine)
  | sameLayout a b => cases handles
  | allocateAgain v => cases handles
  | recordKind ref => cases handles
  | counts | limits | propertyNames => exact .get (.pure sound trivial)
  | format e =>
    refine (safe_type (types e List.mem_cons_self) sound).bind fun t s₁ grows₁ sound₁ _ => ?_
    exact .answers sound₁ ((Run.reads_format t).safe sound₁.machine)
  | forwardSlot owner index =>
    dsimp only
    split
    · exact .misuse sound trivial
    · exact .pure sound trivial

/-- Steps are safe however deep they are nested. -/
theorem run_safe (int : base.Proper Prim.int.typeId) (fuel : Nat) : StepsSafe scope base (Step.run fuel) := by
  induction fuel with
  | zero =>
    intro outer step s fit sound reaches
    exact ⟨trivial, .refl sound.machine.valid, sound⟩
  | succ fuel ih =>
    intro outer step s fit sound reaches
    obtain ⟨op, dest⟩ := step
    exact perform_safe ih int fit sound reaches

end

end Exec

end Gradual
