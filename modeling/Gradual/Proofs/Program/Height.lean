import Gradual.Proofs.Machine.Frame
import Gradual.Proofs.Program.Composition
import Gradual.Proofs.Program.Outcome

/-!
Runs that never take the argument stack below a given height. `Exec.Above height act s` goes along the run of
`act` from `s`: operations on the heap do not touch the stack, pushes add to it, whatever takes arguments off it
must leave `height` of them, and the rest is sequence, protection and calls of bodies. With height zero it says
no more than that the run is made of these, and all steps are (`run_above`).

From this alone follow three facts about failures: the coercion depth is given back (`Above.restores`), what was
at the bottom of the stack is still there (`Above.keeps`), and neither the flag nor the trace has an influence on
what happens (`Above.blind`).
-/
namespace Gradual

def Session.Alike (s t : Session) : Prop :=
  ∃ dirty trace, t = { s with machine := s.machine.reframe s.machine.args dirty trace }

namespace Exec

variable {α β : Type} {height : Nat} {s t : Session}

/-- Started in `s`, the action performs operations of the machine, and `height` arguments stay on the stack. -/
inductive Above (height : Nat) : {α : Type} → Exec α → Session → Prop where
  | quiet {α : Type} {act : Run α} (framed : act.Framed) (s : Session) : Above height (lift act) s
  | get {α : Type} {next : Session → Exec α} {s : Session} (same : ∀ t, s.Alike t → next t = next s)
      (rest : Above height (next s) s) : Above height (get >>= next) s
  | put (name : String) (w : Word) (s : Session) :
      Above height (modify fun s => { s with registers := s.registers.put name w }) s
  | emit (line : String) (s : Session) : Above height (emit line) s
  | push (w : Word) (s : Session) : Above height (lift (Run.pushArg w)) s
  | pop {s : Session} (room : height ≤ s.machine.args.length - 1) : Above height (lift Run.popArg) s
  | clear (s : Session) (bottom : height = 0) : Above height (lift Run.clearArgs) s
  | drop {n : Nat} (s : Session) (room : height ≤ n) : Above height (lift (Run.dropArgs n)) s
  | bind {α β : Type} {act : Exec β} {next : β → Exec α} {s : Session} (first : Above height act s)
      (rest : ∀ b s', act s = .ok b s' → Above height (next b) s') : Above height (act >>= next) s
  | protect {α : Type} {act : Exec α} {s : Session} (inner : Above height act s) : Above height (protect act) s
  | within {α : Type} {act : Exec α} {regs : Registers} {s : Session} (inner : Above height act ⟨s.machine, regs⟩) :
      Above height (lift (withRegisters regs act)) s

/-- A value that the action ends with is the one it returns. -/
theorem ends_returned {act : Exec α} {ok : α → Session → Prop} {err : Fault → Session → Prop}
    (ends : Act.Ends act s ok err) : Act.Ends act s (fun a s' => act s = .ok a s' ∧ ok a s') err := by
  unfold Act.Ends at *
  cases ended : act s with
  | ok a s' =>
    rw [ended] at ends
    exact ⟨rfl, ends⟩
  | error f s' =>
    rw [ended] at ends
    exact ends

inductive SameOutcome : EStateM.Result Fault Session α → EStateM.Result Fault Session α → Prop where
  | ok (a : α) {s t : Session} (alike : s.Alike t) : SameOutcome (.ok a s) (.ok a t)
  | error (f : Fault) {s t : Session} (alike : s.Alike t) : SameOutcome (.error f s) (.error f t)

namespace Above

theorem pure (a : α) (s : Session) : Above height (pure a) s := .quiet (.pure a) s

/-- The depth is given back however the run ends, and a violation that leaves it has set the flag. -/
theorem restores {act : Exec α} (above : Above height act s) :
    Act.Ends act s (fun _ s' => s'.machine.depth = s.machine.depth) fun f s' =>
      s'.machine.depth = s.machine.depth ∧ ∀ v, f = .violation v → s'.machine.dirty = true := by
  induction above with
  | quiet framed s =>
    exact (ends_lift _).2 ((framed.keeps s.machine).mono (fun _ _ kept => kept.2) fun _ _ kept => kept.2)
  | get _ _ ih => exact ih
  | put | emit | clear | drop => exact rfl
  | push w s => exact (ends_lift _).2 (Run.ends_pushArg rfl ⟨rfl, fun _ _ => rfl⟩)
  | pop => exact (ends_lift _).2 (Run.ends_popArg (fun _ _ _ => rfl) fun _ => ⟨rfl, fun _ _ => rfl⟩)
  | bind _ _ ih₁ ih₂ =>
    refine (Act.ends_bind ..).2 ((ends_returned ih₁).mono ?_ fun _ _ fault => fault)
    rintro b s' ⟨ended, same⟩
    rw [← same]
    exact ih₂ b s' ended
  | protect _ ih =>
    refine ends_protect _ (ih.mono (fun _ _ kept => kept) fun f s' kept => ⟨fun _ _ => rfl, fun other => ?_⟩)
    exact ⟨kept.1, fun v caught => absurd caught (other v)⟩
  | within _ ih => exact (ends_lift _).2 ((ends_withRegisters ..).2 ih)

/-- What is below the height stays on the stack. -/
theorem keeps {base : List Word} {act : Exec α} (above : Above base.length act s) (below : base <:+ s.machine.args) :
    Act.Ends act s (fun _ s' => base <:+ s'.machine.args) fun _ s' => base <:+ s'.machine.args := by
  have dropped {args : List Word} {k : Nat} (below : base <:+ args) (room : base.length ≤ args.length - k) :
      base <:+ args.drop k :=
    List.suffix_of_suffix_length_le below (List.drop_suffix k args) (by rwa [List.length_drop])
  induction above with
  | quiet framed s =>
    refine (ends_lift _).2 ((framed.keeps s.machine).mono (fun _ m kept => ?_) fun _ m kept => ?_) <;>
      exact kept.1 ▸ below
  | get _ _ ih => exact ih below
  | put | emit => exact below
  | push w s => exact (ends_lift _).2 (Run.ends_pushArg (below.trans (List.suffix_cons ..)) below)
  | @pop s room =>
    refine (ends_lift _).2 (Run.ends_popArg (fun w rest stack => ?_) fun _ => below)
    rw [stack] at below room
    exact dropped below room
  | clear s bottom =>
    rw [List.eq_nil_of_length_eq_zero bottom]
    exact List.nil_suffix
  | @drop n s room =>
    have length := below.length_le
    exact dropped below (by omega)
  | bind _ _ ih₁ ih₂ =>
    refine (Act.ends_bind ..).2 ((ends_returned (ih₁ below)).mono ?_ fun _ _ fault => fault)
    rintro b s' ⟨ended, kept⟩
    exact ih₂ b s' ended kept
  | protect _ ih =>
    refine ends_protect _ ((ih below).mono (fun _ _ kept => kept) fun f s' kept => ⟨fun _ _ => ?_, fun _ => kept⟩)
    have entry := below.length_le
    have length := kept.length_le
    exact dropped kept (by omega)
  | within _ ih => exact (ends_lift _).2 ((ends_withRegisters ..).2 (ih below))

/-- The run goes the same way with any other flag and trace. -/
theorem blind {act : Exec α} (above : Above height act s) (alike : s.Alike t) : SameOutcome (act s) (act t) := by
  induction above generalizing t with
  | @quiet _ act framed s =>
    obtain ⟨dirty, trace, rfl⟩ := alike
    have keeps := framed.keeps s.machine
    have frame := framed.frame s.machine s.machine.args dirty trace
    unfold Run.Ends at keeps
    unfold lift
    rw [frame]
    cases ended : act s.machine with
    | ok a m =>
      rw [ended] at keeps
      exact .ok a ⟨dirty, trace, by rw [keeps.1]⟩
    | error f m =>
      rw [ended] at keeps
      cases f with
      | violation v => exact .error _ ⟨true, trace, by rw [keeps.1]⟩
      | misuse | broken | exhausted => exact .error _ ⟨dirty, trace, by rw [keeps.1]⟩
  | @get _ next s same _ ih =>
    change SameOutcome (next s s) (next t t)
    rw [same t alike]
    exact ih alike
  | put name w s =>
    obtain ⟨dirty, trace, rfl⟩ := alike
    exact .ok _ ⟨dirty, trace, rfl⟩
  | emit line s =>
    obtain ⟨dirty, trace, rfl⟩ := alike
    exact .ok _ ⟨dirty, line :: trace, rfl⟩
  | push w s =>
    obtain ⟨dirty, trace, rfl⟩ := alike
    change SameOutcome (lift (if s.machine.args.length ≥ s.machine.limits.argStack then _ else _) s)
      (lift (if s.machine.args.length ≥ s.machine.limits.argStack then _ else _) _)
    split
    · exact .error _ ⟨true, trace, rfl⟩
    · exact .ok _ ⟨dirty, trace, rfl⟩
  | @pop s room =>
    obtain ⟨dirty, trace, rfl⟩ := alike
    obtain ⟨⟨hash, limits, oracle, types, heap, args, lastReturn, depth, flag, lines⟩, registers⟩ := s
    cases args with
    | nil => exact .error _ ⟨true, trace, rfl⟩
    | cons w rest => exact .ok _ ⟨dirty, trace, rfl⟩
  | clear s bottom =>
    obtain ⟨dirty, trace, rfl⟩ := alike
    exact .ok _ ⟨dirty, trace, rfl⟩
  | drop s room =>
    obtain ⟨dirty, trace, rfl⟩ := alike
    exact .ok _ ⟨dirty, trace, rfl⟩
  | @bind _ _ act next s _ _ ih₁ ih₂ =>
    have first := ih₁ alike
    change SameOutcome (EStateM.bind act next s) (EStateM.bind act next t)
    unfold EStateM.bind
    generalize ended : act s = x at first ⊢
    generalize act t = y at first ⊢
    cases first with
    | ok b alike' => exact ih₂ b _ ended alike'
    | error f alike' => exact .error f alike'
  | @protect _ act s _ ih =>
    have inner := ih alike
    obtain ⟨dirty, trace, rfl⟩ := alike
    unfold Exec.protect
    generalize act s = x at inner ⊢
    generalize act _ = y at inner ⊢
    cases inner with
    | ok a alike' => exact .ok _ alike'
    | error f alike' =>
      cases f with
      | violation v =>
        obtain ⟨dirty', trace', rfl⟩ := alike'
        exact .ok _ ⟨dirty', trace', rfl⟩
      | misuse | broken | exhausted => exact .error _ alike'
  | @within _ act regs s _ ih =>
    obtain ⟨dirty, trace, rfl⟩ := alike
    have inner := ih ⟨dirty, trace, rfl⟩
    unfold lift withRegisters
    dsimp only at inner ⊢
    generalize act ⟨s.machine, regs⟩ = x at inner ⊢
    generalize act ⟨_, regs⟩ = y at inner ⊢
    cases inner with
    | ok a alike' =>
      obtain ⟨dirty', trace', rfl⟩ := alike'
      exact .ok _ ⟨dirty', trace', rfl⟩
    | error f alike' =>
      obtain ⟨dirty', trace', rfl⟩ := alike'
      exact .error _ ⟨dirty', trace', rfl⟩

end Above

theorem Above.composition (height : Nat) :
    Composition (fun act _ => Run.Framed act) fun act => ∀ s, Above height act s where
  operations := Run.Framed.congruence
  quiet := .quiet
  bind first rest s := .bind (first s) fun b s' _ => rest b s'
  get {_ next} same each s := by
    refine .get (fun t alike => ?_) (each s s)
    obtain ⟨dirty, trace, rfl⟩ := alike
    exact same s { s with machine := s.machine.reframe s.machine.args dirty trace }
  put := .put
  emit := .emit
  push := .push
  protect inner s := .protect (inner s)

end Exec

def Run.Composed {α : Type} (act : Run α) : Prop := ∀ s, Exec.Above 0 (Exec.lift act) s

theorem Run.Composed.calling : Run.Calling (fun act _ => Run.Framed act) Run.Composed where
  operations := Run.Framed.congruence
  quiet := .quiet
  bind first rest s := by
    rw [Exec.lift_bind]
    exact .bind (first s) fun b s' _ => rest b s'
  get {_ next} same each s := by
    change Exec.Above 0 (MonadState.get >>= fun s => Exec.lift (next s.machine)) s
    refine .get (fun t alike => ?_) (each s.machine s)
    obtain ⟨dirty, trace, rfl⟩ := alike
    exact congrArg Exec.lift (same s.machine (s.machine.reframe s.machine.args dirty trace))
  exhausted := .quiet ⟨fun _ => rfl, fun _ _ _ _ => rfl⟩
  pushArg := .push
  popArg _ := .pop (Nat.zero_le _)
  dropArgs _ s := .drop s (Nat.zero_le _)

/-- The operation leaves `height` arguments on the stack. What calls bodies or runs steps inside of it may take
all of them. -/
def Operation.Leaves (height : Nat) (s : Session) : Operation → Prop
  | .pop => height ≤ s.machine.args.length - 1
  | .clearArgs | .call _ _ _ | .callUntyped _ | .callWith _ _ _ | .construct _ _ | .branch _ _ _ | .protect _ =>
    height = 0
  | _ => True

theorem Operation.leaves_zero (op : Operation) (s : Session) : op.Leaves 0 s := by
  cases op with
  | pop => exact Nat.zero_le _
  | clearArgs | call | callUntyped | callWith | construct | branch | protect => rfl
  | _ => trivial

namespace Exec

variable {height : Nat} {s : Session} {ctx : Context} {exec : Context → Step → Exec Answer}

theorem Above.nesting : Nesting (fun act _ => Run.Framed act) Run.Composed fun act => ∀ s, Above 0 act s where
  toComposition := composition 0
  calls := Run.Composed.calling
  lift composed := composed
  within _ inner _ := .within (inner _)
  clear s := .clear s rfl

theorem Above.discard {α : Type} {act : Exec α} (above : Above height act s) : Above height (discard act) s := by
  change Above height (Function.const α PUnit.unit <$> act) s
  rw [map_eq_pure_bind]
  exact .bind above fun _ s' _ => .pure _ s'

theorem above_steps {all : List Step} (inner : ∀ step s, Above height (exec ctx step) s) :
    Above height (steps (exec ctx) all) s :=
  (Above.composition height).steps (fun step s => (inner step s).discard) all s

theorem perform_above {fuel : Nat} {dest : Option String} {op : Operation}
    (inner : ∀ ctx step s, Above 0 (exec ctx step) s) (leaves : op.Leaves height s) :
    Above height (perform exec fuel ctx dest op) s := by
  have operations := Above.composition height
  have plain (op : Operation) (plain : op.Plain) : Above height (perform exec fuel ctx dest op) s :=
    operations.perform_plain plain s
  -- none of the operations reads the flag or the trace before it starts
  have start {next : Session → Exec Answer} (same : ∀ s t, next (s.withView t) = next s)
      (rest : Above height (next s) s) : Above height (MonadState.get >>= next) s := by
    refine .get (fun t alike => ?_) rest
    obtain ⟨dirty, trace, rfl⟩ := alike
    exact same s { s with machine := s.machine.reframe s.machine.args dirty trace }
  cases op with
  | pop => exact start (fun _ _ => rfl) (.bind (.pop leaves) fun w s' _ => operations.keep dest w s')
  | limits =>
    refine start (fun _ _ => rfl) (.get (fun t alike => ?_) (.pure _ s))
    obtain ⟨_, _, rfl⟩ := alike
    rfl
  | clearArgs | call | callUntyped | callWith | construct | branch | protect =>
    cases leaves
    exact Above.nesting.perform (fun ctx step s => (inner ctx step s).discard) (by simp) s
  | _ => exact plain _ trivial

/-- A step performs operations of the machine however deep it is nested. -/
theorem run_above (fuel : Nat) (ctx : Context) (step : Step) (s : Session) : Above 0 (Step.run fuel ctx step) s := by
  induction fuel generalizing ctx step s with
  | zero => exact Run.Composed.calling.exhausted s
  | succ fuel ih =>
    obtain ⟨op, dest⟩ := step
    exact perform_above ih (op.leaves_zero s)

end Exec

end Gradual
