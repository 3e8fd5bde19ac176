import Gradual.Proofs.Program.Steps

/-!
A host that passes values and proper types meets no internal failure. Main statement:
`Session.Reachable.perform_fair`, for all steps one after the other and whatever came of those before.
-/
namespace Gradual

variable {scope : TypeScope} {base base' : TypeStore}

/-- What fits stays fit as types are added. -/
theorem Operation.Fit.extend {op : Operation} (fit : op.Fit scope base) (grown : base.Extends base') :
    op.Fit scope base' := by
  induction fit with
  | mk operands types literal handles steps ih =>
    refine .mk operands (fun e member s later => ?_) (fun e values same s later => ?_) handles ih
    · exact types e member s (grown.trans later)
    · exact literal e values same s (grown.trans later)

theorem Body.Fit.extend {body : Body} (fit : body.Fit scope base) (grown : base.Extends base') :
    body.Fit scope base' :=
  ⟨fun s member => (fit.steps s member).extend grown, fit.ret⟩

namespace Machine

variable {m : Machine}

theorem Coded.mono {Runs Runs' : Body → Prop} {tag : Child} {code : Code} (coded : m.Coded Runs tag code)
    (weaker : ∀ body, Runs body → Runs' body) : m.Coded Runs' tag code := by
  cases coded with
  | typed proper shape count runs captured => exact .typed proper shape count (weaker _ runs) captured
  | untyped runs captured => exact .untyped (weaker _ runs) captured
  | importing proper imports => exact .importing proper imports
  | exporting found callable tag => exact .exporting found callable tag

/-- The types of the machine itself can take the place of those it started from. -/
theorem Sound.rebase (sound : m.Sound (scope.setting base)) : m.Sound (scope.setting m.types) where
  valid := sound.valid
  types := .refl sound.valid.names
  args := sound.args
  lastReturn := sound.lastReturn
  closures found has_code := (sound.closures found has_code).mono fun _ fit => fit.extend sound.types

end Machine

namespace Session

variable {s : Session} {step : Step}

/-- A step of the top level. -/
theorem perform_grown (int : base.Proper Prim.int.typeId) (fit : step.op.Fit scope base)
    (sound : s.Sound (scope.setting base)) (fuel : Nat) (guarded : Bool) :
    (∀ f, (s.perform fuel scope guarded step).1.result = .error f →
      f.Fair (s.perform fuel scope guarded step).2.machine) ∧
      s.machine.Grows (s.perform fuel scope guarded step).2.machine ∧
      (s.perform fuel scope guarded step).2.Sound (scope.setting base) := by
  have traced := sound.machine.traced []
  have reaches : Exec.Reaches ⟨scope, none⟩ { s.machine with trace := [] } := List.forall_mem_nil _
  have safe := Exec.run_safe int fuel fit (sound.grown traced) reaches
  refine perform_ends (fun f s' => f.Fair s'.machine)
    (fun s' => s.machine.Grows s'.machine ∧ s'.Sound (scope.setting base)) (Act.Ends.mono safe ?_ ?_)
    (Act.Ends.mono safe.protect ?_ ?_) guarded
  · rintro answer s' ⟨⟨grows, sound'⟩, _⟩
    exact ⟨traced.1.trans grows, sound'⟩
  · rintro f s' ⟨fair, grows, sound'⟩
    exact ⟨fair, traced.1.trans grows, sound'⟩
  · rintro result s' ⟨⟨grows, sound'⟩, _⟩
    exact ⟨fun _ _ => trivial, traced.1.trans grows, sound'⟩
  · rintro f s' ⟨fair, grows, sound'⟩
    exact ⟨fair, traced.1.trans grows, sound'⟩

theorem perform_sound (int : base.Proper Prim.int.typeId) (fit : step.op.Fit scope base)
    (sound : s.Sound (scope.setting base)) (fuel : Nat) (guarded : Bool) :
    (∀ f, (s.perform fuel scope guarded step).1.result = .error f →
      f.Fair (s.perform fuel scope guarded step).2.machine) ∧
      (s.perform fuel scope guarded step).2.Sound (scope.setting base) :=
  have grown := perform_grown int fit sound fuel guarded
  ⟨grown.1, grown.2.2⟩

inductive Reachable (scope : TypeScope) : Session → Prop where
  | initial (hash : String → UInt64) (limits : Limits) (oracle : Oracle) {types : TypeStore}
      (distinct : types.names.names.toList.Nodup) (int : types.graph.node Prim.int.typeId = .prim .int) :
      Reachable scope (Session.initial (Machine.initial hash limits oracle types))
  | step {s : Session} {step : Step} (reachable : Reachable scope s) (fuel : Nat) (guarded : Bool)
      (fit : step.op.Fit scope s.machine.types) : Reachable scope (s.perform fuel scope guarded step).2

/-- A primitive type needs no parts. -/
theorem proper_int {types : TypeStore} (int : types.graph.node Prim.int.typeId = .prim .int) :
    types.Proper Prim.int.typeId := by
  refine .of_closed [Prim.int.typeId] (fun t member => ?_) List.mem_cons_self
  cases List.mem_singleton.1 member
  simp [Graph.children, int, Node.WellFormed, Node.props, Node.children]

theorem Reachable.sound (reachable : s.Reachable scope) :
    s.Sound (scope.setting s.machine.types) ∧ s.machine.types.Proper Prim.int.typeId := by
  induction reachable with
  | @initial hash limits oracle types distinct int =>
    have machine : (Machine.initial hash limits oracle types).Sound (scope.setting types) :=
      { valid := (Machine.Reachable.initial hash limits oracle distinct).valid
        types := .refl distinct
        args := List.forall_mem_nil _
        lastReturn := Heap.genuine_undefined
        closures := fun found => by simp [Machine.initial] at found }
    exact ⟨⟨machine, List.forall_mem_nil _⟩, proper_int int⟩
  | step _ fuel guarded fit ih =>
    obtain ⟨_, sound⟩ := perform_sound ih.2 fit ih.1 fuel guarded
    exact ⟨⟨sound.machine.rebase, sound.registers⟩, ih.2.extend sound.machine.types⟩

/-- What a session does is done by operations of its machine, so what holds of all states that a host can reach by
these holds between the steps of programs. -/
theorem Reachable.machine (reachable : s.Reachable scope) : s.machine.Reachable := by
  induction reachable with
  | initial hash limits oracle distinct => exact .initial hash limits oracle distinct
  | step before fuel guarded fit ih =>
    obtain ⟨sound, int⟩ := before.sound
    obtain ⟨_, grows, _⟩ := perform_grown int fit sound fuel guarded
    exact ih.leads grows.leads

/-- No internal failure is reachable. A step fails by a violation, because the host has not met a precondition
of an operation, because it asks for more memory than there is or writes at the largest index, or because handles
or fuel have run out. Whatever came of it, every word in reach is a value
whose kind is that of its record, every closure has code that goes with its tag, and every property in a slot
has it inside of its record, or forwards to one inside of another. -/
theorem Reachable.perform_fair {fuel : Nat} {guarded : Bool} {report : Report} {s' : Session}
    (reachable : s.Reachable scope) (fit : step.op.Fit scope s.machine.types)
    (performed : s.perform fuel scope guarded step = (report, s')) :
    (∀ f, report.result = .error f → f.Fair s'.machine) ∧ s'.Sound (scope.setting s.machine.types) ∧
      ∀ ref r id i, s'.machine.heap.get? ref = some r → r.slotOf? id = some i → i < r.slots.size ∧
        ∀ owner j, r.slots[i]? = some (.forward owner j) →
          ∃ q, s'.machine.heap.get? owner = some q ∧ j < q.slots.size := by
  obtain ⟨sound, int⟩ := reachable.sound
  have outcome := perform_sound int fit sound fuel guarded
  rw [performed] at outcome
  obtain ⟨fair, sound'⟩ := outcome
  refine ⟨fair, sound', fun ref r id i found slot => ?_⟩
  have valid := sound'.machine.valid
  refine ⟨((valid.records found).slot_lt slot).2, fun owner j forward => ?_⟩
  obtain ⟨q, at_owner, slot'⟩ := valid.aligned found id i owner j slot forward
  exact ⟨q, at_owner, ((valid.records at_owner).slot_lt slot').2⟩

/-- The type `fn(int) int` (6). -/
def callbackTypes : TypeStore :=
  ⟨⟨Graph.primitives.nodes ++ #[.closure ⟨.function, [some 0], some 0, none⟩]⟩, ⟨#[]⟩⟩

def callbackScope : TypeScope := [("callback", 6)]

def callbackCall : Operation := .call (.register "typed") (.word Word.undefined) [.word (Word.ofInt 5)]

/-- Untyped code that pops its receiver and an argument and answers with a string is imported at the type, and
called twice, the first time under protection. -/
def callbackStep : Step :=
  .mk (.branch (.word (Word.ofInt 1))
    [.mk (.newUntyped (.mk ["recv", "x"] [] (some (.text "five"))) none false) (some "plain"),
      .mk (.coerce (.register "plain") (.named "callback")) (some "typed"),
      .mk (.protect [.mk callbackCall none]) none, .mk callbackCall none] []) none

def callbackSession : Session := .initial (.initial (fun _ => 0) Limits.default Oracle.silent callbackTypes)

theorem callback_fit : callbackStep.op.Fit callbackScope callbackTypes := by
  have int (n : Int32) : (Operand.word (Word.ofInt n)).Given := ⟨.int n, Word.ofInt_decode? n, rfl⟩
  have proper : callbackTypes.Proper 6 := .of_closed [0, 6] (by decide) (by decide)
  have call : callbackCall.Fit callbackScope callbackTypes := by
    refine .mk ?_ nofun nofun rfl nofun
    exact List.forall_mem_cons.2 ⟨trivial, List.forall_mem_cons.2 ⟨⟨.undefined, by simp, rfl⟩,
      List.forall_mem_singleton.2 (int 5)⟩⟩
  have made : (Operation.newUntyped (.mk ["recv", "x"] [] (some (.text "five"))) none false).Fit callbackScope
      callbackTypes :=
    .mk (List.forall_mem_singleton.2 trivial) nofun nofun rfl nofun
  have imported : (Operation.coerce (.register "plain") (.named "callback")).Fit callbackScope callbackTypes := by
    refine .mk (List.forall_mem_singleton.2 trivial) (List.forall_mem_singleton.2 fun s grown => ?_) nofun rfl nofun
    intro u same
    cases same
    exact proper.extend grown
  have protected_call : (Operation.protect [.mk callbackCall none]).Fit callbackScope callbackTypes :=
    .mk nofun nofun nofun rfl (List.forall_mem_singleton.2 call)
  refine .mk (List.forall_mem_singleton.2 (int 1)) nofun nofun rfl ?_
  exact List.forall_mem_cons.2 ⟨made, List.forall_mem_cons.2 ⟨imported, List.forall_mem_cons.2 ⟨protected_call,
    List.forall_mem_singleton.2 call⟩⟩⟩

theorem result_eq_error {result : Except Fault Answer} {f : Fault}
    (fails : (match result with
      | .error g => decide (g = f)
      | .ok _ => false) = true) : result = .error f := by
  split at fails
  next => rw [of_decide_eq_true fails]
  next => cases fails

theorem Reachable.perform_fair_callback :
    (callbackSession.perform 9 callbackScope false callbackStep).1.result =
      .error (.violation (.mismatch "untyped string string#4" "int")) ∧
    (callbackSession.perform 9 callbackScope false callbackStep).2.Sound (callbackScope.setting callbackTypes) := by
  constructor
  · exact result_eq_error (by decide +kernel)
  · exact (perform_fair (.initial _ _ _ (by decide) rfl) callback_fit (Prod.eta _).symm).2.1

def arrayStep (i : Int64) : Step :=
  .mk (.branch (.word (Word.ofInt 1))
    [.mk (.newArray []) (some "array"), .mk (.arrayPut (.register "array") (.word Word.undefined) i) none] []) none

theorem array_fit (i : Int64) : (arrayStep i).op.Fit callbackScope callbackTypes := by
  have written : (Operation.arrayPut (.register "array") (.word Word.undefined) i).Fit callbackScope callbackTypes :=
    .mk (List.forall_mem_cons.2 ⟨trivial, List.forall_mem_singleton.2 ⟨.undefined, by simp, rfl⟩⟩) nofun nofun rfl nofun
  refine .mk (List.forall_mem_singleton.2 ⟨.int 1, Word.ofInt_decode? 1, rfl⟩) nofun nofun rfl ?_
  exact List.forall_mem_cons.2 ⟨.mk nofun nofun nofun rfl nofun, List.forall_mem_singleton.2 written⟩

/-- Violations and preconditions are not all there is. There is no memory for an array of 2⁶² elements, and the
length of one with the largest index wraps around. -/
theorem Reachable.perform_far_write :
    callbackSession.Reachable callbackScope ∧ (∀ i, (arrayStep i).op.Fit callbackScope callbackTypes) ∧
    (callbackSession.perform 9 callbackScope false (arrayStep 0x4000000000000000)).1.result =
      .error (.misuse (.allocation 0x20000000000000008)) ∧
    (callbackSession.perform 9 callbackScope false (arrayStep Int64.maxValue)).1.result =
      .error (.misuse (.overrun Int64.maxValue Deque.minCapacity)) ∧
    (∀ bytes, ¬ (Misuse.allocation bytes).Precondition) ∧ ∀ i places, ¬ (Misuse.overrun i places).Precondition := by
  refine ⟨.initial _ _ _ (by decide) rfl, array_fit, ?_, ?_, fun _ => id, fun _ _ => id⟩
  · exact result_eq_error (by decide +kernel)
  · exact result_eq_error (by decide +kernel)

end Session

end Gradual
