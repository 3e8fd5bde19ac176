import Gradual.Proofs.Machine.Congruence
import Gradual.Proofs.Machine.Outcome

/-!
Operations on the heap take no notice of the argument stack, of the flag and of the trace. With any other
ones they come to the same result and leave them as they are, only that a violation sets the flag; and they
give back the coercion depth they were started with. Nor do they read the return register, though they may
set it. No condition on the machine is needed for this, so it holds in the middle of a failure too.
-/
namespace Gradual

def Machine.reframe (m : Machine) (args : List Word) (dirty : Bool) (trace : List String) : Machine :=
  { m with args, dirty, trace }

def Machine.withReturn (m : Machine) (w : Word) : Machine := { m with lastReturn := w }

namespace Run

variable {α β : Type}

/-- The outcome with another argument stack, flag and trace, the flag being set by a violation. -/
def reframe (args : List Word) (dirty : Bool) (trace : List String) :
    EStateM.Result Fault Machine α → EStateM.Result Fault Machine α
  | .ok a m => .ok a (m.reframe args dirty trace)
  | .error (.violation v) m => .error (.violation v) (m.reframe args true trace)
  | .error f m => .error f (m.reframe args dirty trace)

/-- The action neither reads nor writes the argument stack, the flag and the trace, and gives back the depth. -/
structure Framed (act : Run α) : Prop where
  depth : ∀ m, act.Ends m (fun _ m' => m'.depth = m.depth) fun _ m' => m'.depth = m.depth
  frame : ∀ m args dirty trace, act (m.reframe args dirty trace) = reframe args dirty trace (act m)

namespace Framed

theorem pure (a : α) : Framed (pure a) := ⟨fun _ => rfl, fun _ _ _ _ => rfl⟩

theorem violate (v : Violation) : Framed (violate v : Run α) := ⟨fun _ => rfl, fun _ _ _ _ => rfl⟩

theorem misuse (e : Misuse) : Framed (misuse e : Run α) := ⟨fun _ => rfl, fun _ _ _ _ => rfl⟩

theorem broken : Framed (broken : Run α) := ⟨fun _ => rfl, fun _ _ _ _ => rfl⟩

theorem bind {act : Run β} {next : β → Run α} (first : Framed act) (rest : ∀ b, Framed (next b)) :
    Framed (act >>= next) where
  depth m := by
    rw [ends_bind]
    refine (first.depth m).mono (fun b m' same => ?_) fun _ _ same => same
    rw [← same]
    exact (rest b).depth m'
  frame m args dirty trace := by
    change EStateM.bind act next _ = reframe args dirty trace (EStateM.bind act next m)
    unfold EStateM.bind
    rw [first.frame]
    cases act m with
    | ok b m' => exact (rest b).frame m' args dirty trace
    | error f m' => cases f <;> rfl

/-- What is read of the machine must not be the stack, the flag or the trace. -/
theorem get {next : Machine → Run α} (same : ∀ m args dirty trace, next (m.reframe args dirty trace) = next m)
    (each : ∀ m, Framed (next m)) : Framed (get >>= next) where
  depth m := (each m).depth m
  frame m args dirty trace := by
    change next (m.reframe args dirty trace) (m.reframe args dirty trace) = reframe args dirty trace (next m m)
    rw [same]
    exact (each m).frame m args dirty trace

theorem modify {f : Machine → Machine} (depth : ∀ m, (f m).depth = m.depth)
    (frame : ∀ m args dirty trace, f (m.reframe args dirty trace) = (f m).reframe args dirty trace) :
    Framed (modify f) :=
  ⟨depth, fun m args dirty trace => congrArg (EStateM.Result.ok ()) (frame m args dirty trace)⟩

/-- The depth is counted up and down again. -/
theorem nested {act : Run α} (framed : Framed act) : Framed (nested act) where
  depth m := by
    have inner := framed.depth { m with depth := m.depth + 1 }
    unfold Ends at inner ⊢
    unfold Run.nested
    cases ended : act { m with depth := m.depth + 1 } with
    | ok a m' =>
      rw [ended] at inner
      simp only [inner, Nat.add_sub_cancel]
    | error f m' =>
      rw [ended] at inner
      simp only [inner, Nat.add_sub_cancel]
  frame m args dirty trace := by
    have inner := framed.frame { m with depth := m.depth + 1 } args dirty trace
    unfold Run.nested
    dsimp only [Machine.reframe] at inner ⊢
    rw [inner]
    cases act { m with depth := m.depth + 1 } with
    | ok a m' => rfl
    | error f m' => cases f <;> rfl

/-- An action that returns leaves stack, flag and trace as they are: with its own ones the machine is itself. -/
theorem eq_reframe {act : Run α} (framed : Framed act) {m m' : Machine} {a : α} (ended : act m = .ok a m') :
    m' = m'.reframe m.args m.dirty m.trace := by
  have frame := framed.frame m m.args m.dirty m.trace
  rw [show m.reframe m.args m.dirty m.trace = m from rfl, ended] at frame
  exact (EStateM.Result.ok.inj frame).2

/-- The stack and the depth are as before, and after a violation the flag is set. -/
theorem keeps {act : Run α} (framed : Framed act) (m : Machine) :
    act.Ends m (fun _ m' => m'.args = m.args ∧ m'.depth = m.depth) fun f m' =>
      m'.args = m.args ∧ m'.depth = m.depth ∧ ∀ v, f = .violation v → m'.dirty = true := by
  have depth := framed.depth m
  -- with its own stack, flag and trace the machine is itself
  have frame := framed.frame m m.args m.dirty m.trace
  rw [show m.reframe m.args m.dirty m.trace = m from rfl] at frame
  unfold Ends at depth ⊢
  cases ended : act m with
  | ok a m' =>
    rw [ended] at depth
    exact ⟨by rw [framed.eq_reframe ended]; rfl, depth⟩
  | error f m' =>
    rw [ended] at depth frame
    cases f with
    | violation v =>
      have same : m' = m'.reframe m.args true m.trace := (EStateM.Result.error.inj frame).2
      exact ⟨by rw [same]; rfl, depth, fun _ _ => by rw [same]; rfl⟩
    | misuse | broken | exhausted =>
      have same : m' = m'.reframe m.args m.dirty m.trace := (EStateM.Result.error.inj frame).2
      refine ⟨by rw [same]; rfl, depth, ?_⟩
      rintro v ⟨⟩

end Framed

theorem framed_build (b : TypeBuilder α) : Framed (build b) where
  depth m := by
    unfold Ends build
    cases b m.types <;> rfl
  frame m args dirty trace := by
    unfold build
    rw [show (m.reframe args dirty trace).types = m.types from rfl]
    cases b m.types <;> rfl

theorem framed_allocate (r : Record) : Framed (allocate r) where
  depth m := by
    rw [ends_allocate]
    split <;> rfl
  frame m args dirty trace := by
    change (if m.heap.size + 1 ≤ maxRef then _ else _ : Run Word) (m.reframe args dirty trace) =
      reframe args dirty trace ((if m.heap.size + 1 ≤ maxRef then _ else _ : Run Word) m)
    split <;> rfl

theorem framed_emptyObject (count : Nat) : Framed (emptyObject count) := by
  unfold emptyObject
  split
  · exact .misuse _
  · exact framed_allocate _

theorem framed_verdict (rel : Relation) (a b : Child) : Framed (verdict rel a b) := by
  refine .get (fun _ _ _ _ => rfl) fun m => ?_
  split
  · exact .pure _
  · exact .violate _
  · exact .misuse _

/-- All operations on the heap are framed. -/
theorem Framed.congruence : Congruence fun act _ => Framed act where
  pure := .pure
  bind := .bind
  violate := .violate
  misuse := .misuse
  broken := .broken
  get same _ each := .get (fun m args dirty trace => same m (m.reframe args dirty trace)) each
  build := framed_build
  updateRecord _ _ := .modify (fun _ => rfl) fun _ _ _ _ => rfl
  allocate := framed_allocate
  setReturn _ := .modify (fun _ => rfl) fun _ _ _ _ => rfl
  newObject _ := .get (fun _ _ _ _ => rfl) fun _ => framed_emptyObject _
  verdict := framed_verdict
  nested := .nested
  spent _ _ _ := .nested (.get (fun _ _ _ _ => rfl) fun _ => .violate _)
  enter _ _ within := .get (fun _ _ _ _ => rfl) fun _ => within _ _ (Nat.le_refl _)

theorem framed_coerce (w : Word) (t : Child) : Framed (coerce w t) := Framed.congruence.coerce w t

def forgetReturn : EStateM.Result Fault Machine α → EStateM.Result Fault Machine α
  | .ok a m => .ok a (m.withReturn Word.undefined)
  | .error f m => .error f (m.withReturn Word.undefined)

/-- Outcomes that differ in the return register alone are of one kind. -/
theorem forgetReturn_cases {x y : EStateM.Result Fault Machine α} (same : forgetReturn x = forgetReturn y) :
    (∃ a m m', x = .ok a m ∧ y = .ok a m' ∧ m.withReturn Word.undefined = m'.withReturn Word.undefined) ∨
      ∃ f m m', x = .error f m ∧ y = .error f m' ∧ m.withReturn Word.undefined = m'.withReturn Word.undefined := by
  cases x with
  | ok a m =>
    cases y with
    | ok b m' =>
      obtain ⟨rfl, states⟩ := EStateM.Result.ok.inj same
      exact .inl ⟨a, m, m', rfl, rfl, states⟩
    | error f m' => cases same
  | error f m =>
    cases y with
    | ok b m' => cases same
    | error g m' =>
      obtain ⟨rfl, states⟩ := EStateM.Result.error.inj same
      exact .inr ⟨f, m, m', rfl, rfl, states⟩

/-- What is in the return register makes no difference to the action, but for what it may leave there. -/
def Heedless (act : Run α) : Prop := ∀ m w, forgetReturn (act (m.withReturn w)) = forgetReturn (act m)

namespace Heedless

/-- States that differ in the return register alone. -/
theorem congr {act : Run α} (heedless : Heedless act) {m m' : Machine}
    (same : m.withReturn Word.undefined = m'.withReturn Word.undefined) :
    forgetReturn (act m) = forgetReturn (act m') := by
  rw [← heedless m Word.undefined, same, heedless m' Word.undefined]

theorem ok {act : Run α} (heedless : Heedless act) {m m' : Machine} {a : α} (ended : act m = .ok a m') (w : Word) :
    ∃ m₁, act (m.withReturn w) = .ok a m₁ ∧ m₁.withReturn Word.undefined = m'.withReturn Word.undefined := by
  obtain ⟨_, m₁, _, left, right, states⟩ | ⟨_, _, _, _, right, _⟩ := forgetReturn_cases (heedless m w)
  · cases ended.symm.trans right
    exact ⟨m₁, left, states⟩
  · cases ended.symm.trans right

theorem error {act : Run α} (heedless : Heedless act) {m m' : Machine} {f : Fault} (ended : act m = .error f m')
    (w : Word) : ∃ m₁, act (m.withReturn w) = .error f m₁ := by
  obtain ⟨_, _, _, _, right, _⟩ | ⟨_, m₁, _, left, right, _⟩ := forgetReturn_cases (heedless m w)
  · cases ended.symm.trans right
  · cases ended.symm.trans right
    exact ⟨m₁, left⟩

theorem bind {act : Run β} {next : β → Run α} (first : Heedless act) (rest : ∀ b, Heedless (next b)) :
    Heedless (act >>= next) := by
  intro m w
  change forgetReturn (EStateM.bind act next _) = forgetReturn (EStateM.bind act next m)
  unfold EStateM.bind
  rcases forgetReturn_cases (first m w) with ⟨b, m₁, m₂, left, right, states⟩ | ⟨f, m₁, m₂, left, right, states⟩
  · rw [left, right]
    exact (rest b).congr states
  · rw [left, right]
    exact congrArg (EStateM.Result.error f) states

theorem get {next : Machine → Run α} (same : ∀ m w, next (m.withReturn w) = next m) (each : ∀ m, Heedless (next m)) :
    Heedless (get >>= next) := by
  intro m w
  change forgetReturn (next (m.withReturn w) (m.withReturn w)) = forgetReturn (next m m)
  rw [same]
  exact each m m w

theorem nested {act : Run α} (heedless : Heedless act) : Heedless (nested act) := by
  intro m w
  have raised : { m.withReturn w with depth := m.depth + 1 } = Machine.withReturn { m with depth := m.depth + 1 } w :=
    rfl
  unfold Run.nested
  rw [show (m.withReturn w).depth = m.depth from rfl, raised]
  rcases forgetReturn_cases (heedless { m with depth := m.depth + 1 } w) with
    ⟨a, m₁, m₂, left, right, states⟩ | ⟨f, m₁, m₂, left, right, states⟩
  all_goals
    rw [left, right]
    have lowered := congrArg (fun n : Machine => { n with depth := n.depth - 1 }) states
  · exact congrArg (EStateM.Result.ok a) lowered
  · exact congrArg (EStateM.Result.error f) lowered

end Heedless

theorem heedless_allocate (r : Record) : Heedless (allocate r) := by
  intro m w
  change forgetReturn ((if m.heap.size + 1 ≤ maxRef then _ else _ : Run Word) (m.withReturn w)) =
    forgetReturn ((if m.heap.size + 1 ≤ maxRef then _ else _ : Run Word) m)
  split <;> rfl

theorem heedless_emptyObject (count : Nat) : Heedless (emptyObject count) := by
  unfold emptyObject
  split
  · exact fun _ _ => rfl
  · exact heedless_allocate _

/-- All operations on the heap are heedless of the return register. -/
theorem Heedless.congruence : Congruence fun act _ => Heedless act where
  pure _ := fun _ _ => rfl
  bind := .bind
  violate _ := fun _ _ => rfl
  misuse _ := fun _ _ => rfl
  broken := fun _ _ => rfl
  get same _ each := .get (fun m w => same m (m.withReturn w)) each
  build b := by
    intro m w
    unfold build
    rw [show (m.withReturn w).types = m.types from rfl]
    cases b m.types <;> rfl
  updateRecord _ _ := fun _ _ => rfl
  allocate := heedless_allocate
  setReturn _ := fun _ _ => rfl
  newObject _ := .get (fun _ _ => rfl) fun _ => heedless_emptyObject _
  verdict rel a b := by
    refine .get (fun _ _ => rfl) fun m => ?_
    split <;> exact fun _ _ => rfl
  nested := .nested
  spent _ _ _ := .nested (.get (fun _ _ => rfl) fun _ _ _ => rfl)
  enter _ _ within := .get (fun _ _ => rfl) fun _ => within _ _ (Nat.le_refl _)

theorem heedless_coerce (w : Word) (t : Child) : Heedless (coerce w t) := Heedless.congruence.coerce w t

section

variable {m : Machine} {w : Word} {err : Fault → Machine → Prop}

theorem ends_pushArg {ok : Unit → Machine → Prop} (pushed : ok () { m with args := w :: m.args })
    (full : err (.violation (.argumentOverflow m.limits.argStack)) { m with dirty := true }) :
    Ends (pushArg w) m ok err := by
  simp only [pushArg, ends_bind, ends_get]
  split
  · exact full
  · exact pushed

theorem ends_popArg {ok : Word → Machine → Prop}
    (value : ∀ w rest, m.args = w :: rest → ok w { m with args := rest })
    (empty : m.args = [] → err (.violation .argumentUnderflow) { m with dirty := true }) : Ends popArg m ok err := by
  simp only [popArg, ends_bind, ends_get]
  cases stack : m.args with
  | nil => exact empty stack
  | cons w rest => exact value w rest stack

end

end Run

end Gradual
