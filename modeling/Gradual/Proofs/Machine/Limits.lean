import Gradual.Proofs.Machine.Frame
import Gradual.Proofs.Outcome
import Gradual.Proofs.Types.Depth

/-!
Runs under larger limits. A limit is read in order to compare it with what a run needs, and a run that needs more
fails by a violation. So as long as there is none, a run goes the same way under all limits that allow at least as
much. `Act.Follows` says this of two actions, and `Run.follows_congruence` and `Run.follows_calling` have it for all
operations of the machine and for calls.
-/
namespace Gradual

structure Limits.Within (l l' : Limits) : Prop where
  conversionSlots : l'.conversionSlots = l.conversionSlots
  coerceDepth : l.coerceDepth ≤ l'.coerceDepth
  subtypeDepth : l.subtypeDepth ≤ l'.subtypeDepth
  argStack : l.argStack ≤ l'.argStack
  variance : l'.variance = l.variance

theorem Limits.Within.refl (l : Limits) : l.Within l := ⟨rfl, Nat.le_refl _, Nat.le_refl _, Nat.le_refl _, rfl⟩

def Machine.relimit (m : Machine) (l : Limits) : Machine := { m with limits := l }

structure Machine.Onward (m m' : Machine) : Prop where
  limits : m'.limits = m.limits
  flag : m'.dirty = false → m.dirty = false

namespace Machine.Onward

variable {m m' m'' : Machine}

theorem refl (m : Machine) : m.Onward m := ⟨rfl, id⟩

theorem trans (first : m.Onward m') (second : m'.Onward m'') : m.Onward m'' :=
  ⟨second.limits.trans first.limits, fun clean => first.flag (second.flag clean)⟩

end Machine.Onward

namespace Act

variable {σ α β : Type}

def Clean (machine : σ → Machine) : EStateM.Result Fault σ α → Prop
  | .ok _ s | .error _ s => (machine s).dirty = false

def moved (f : σ → σ) : EStateM.Result Fault σ α → EStateM.Result Fault σ α
  | .ok a s => .ok a (f s)
  | .error e s => .error e (f s)

/-- Where the first action meets no violation under the limits `l`, the second one does the same in a state with
larger limits. The state has a machine in it, and `relimit` exchanges its limits. -/
structure Follows (machine : σ → Machine) (relimit : σ → σ) (l : Limits) (act act' : EStateM Fault σ α) : Prop where
  keeps : ∀ s, Ends act s (fun _ s' => (machine s).Onward (machine s')) fun f s' =>
    (machine s).Onward (machine s') ∧ ∀ v, f = .violation v → (machine s').dirty = true
  follows : ∀ s, (machine s).limits = l → Clean machine (act s) → act' (relimit s) = moved relimit (act s)

namespace Follows

variable {machine : σ → Machine} {relimit : σ → σ} {l : Limits}

theorem clean {act act' : EStateM Fault σ α} (follows : Follows machine relimit l act act') {s : σ}
    (clean : Clean machine (act s)) : (machine s).dirty = false := by
  have keeps := follows.keeps s
  unfold Ends at keeps
  cases ended : act s with
  | ok a s' =>
    rw [ended] at keeps clean
    exact keeps.flag clean
  | error f s' =>
    rw [ended] at keeps clean
    exact keeps.1.flag clean

theorem pure (a : α) : Follows machine relimit l (pure a) (pure a) := ⟨fun s => .refl (machine s), fun _ _ _ => rfl⟩

theorem throw {f : Fault} (other : ∀ v, f ≠ .violation v) :
    Follows machine relimit l (throw f : EStateM Fault σ α) (throw f) :=
  ⟨fun s => ⟨.refl (machine s), fun v same => absurd same (other v)⟩, fun _ _ _ => rfl⟩

theorem bind {act act' : EStateM Fault σ β} {next next' : β → EStateM Fault σ α}
    (first : Follows machine relimit l act act') (rest : ∀ b, Follows machine relimit l (next b) (next' b)) :
    Follows machine relimit l (act >>= next) (act' >>= next') where
  keeps s := by
    refine (ends_bind ..).2 ((first.keeps s).mono (fun b s' onward => ?_) fun _ _ fault => fault)
    exact ((rest b).keeps s').mono (fun _ _ onward' => onward.trans onward') fun _ _ fault =>
      ⟨onward.trans fault.1, fault.2⟩
  follows s limits clean := by
    have keeps := first.keeps s
    change Clean machine (EStateM.bind act next s) at clean
    change EStateM.bind act' next' (relimit s) = moved relimit (EStateM.bind act next s)
    unfold Ends at keeps
    unfold EStateM.bind at clean ⊢
    cases ended : act s with
    | ok b s' =>
      rw [ended] at keeps clean
      rw [first.follows s limits (by rw [ended]; exact (rest b).clean clean), ended]
      exact (rest b).follows s' (keeps.limits.trans limits) clean
    | error f s' =>
      rw [ended] at clean
      rw [first.follows s limits (by rw [ended]; exact clean), ended]
      rfl

/-- What comes next may depend on the limits. -/
theorem look {next next' : σ → EStateM Fault σ α} (each : ∀ s, ∃ act, Follows machine relimit l (next s) act ∧
      ((machine s).limits = l → next' (relimit s) = act)) :
    Follows machine relimit l (MonadState.get >>= next) (MonadState.get >>= next') where
  keeps s := by
    obtain ⟨act, follows, _⟩ := each s
    exact follows.keeps s
  follows s limits clean := by
    obtain ⟨act, follows, same⟩ := each s
    change next' (relimit s) (relimit s) = moved relimit (next s s)
    rw [same limits]
    exact follows.follows s limits clean

/-- What is read are not the limits. -/
theorem get {next next' : σ → EStateM Fault σ α} (same : ∀ s, next' (relimit s) = next' s)
    (each : ∀ s, Follows machine relimit l (next s) (next' s)) :
    Follows machine relimit l (MonadState.get >>= next) (MonadState.get >>= next') :=
  look fun s => ⟨next' s, each s, fun _ => same s⟩

theorem modify {f : σ → σ} (onward : ∀ s, (machine s).Onward (machine (f s)))
    (same : ∀ s, f (relimit s) = relimit (f s)) : Follows machine relimit l (modify f) (modify f) :=
  ⟨onward, fun s _ _ => congrArg (EStateM.Result.ok ()) (same s)⟩

end Follows

end Act

namespace Run

variable {α : Type} {l l' : Limits}

abbrev Follows (l l' : Limits) (act act' : Run α) : Prop := Act.Follows (fun m => m) (·.relimit l') l act act'

end Run

end Gradual
