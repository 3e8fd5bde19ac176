import Gradual.Program.Run
import Gradual.Proofs.Machine.Calls
import Gradual.Proofs.Machine.Views

/-!
How actions of a session end, and how a step of the top level does (`Session.perform_ends`). `Exec.Safe` says of
actions what `Run.Safe` says of those of the machine, and that registers hold values. An action of the machine
stays safe when it is lifted, and one with registers of its own when they are dropped.
-/
namespace Gradual

def Registers.Hold (regs : Registers) (h : Heap) : Prop := ∀ x ∈ regs, h.Genuine x.2

structure Session.Sound (S : Setting) (s : Session) : Prop where
  machine : s.machine.Sound S
  registers : s.registers.Hold s.machine.heap

namespace Registers

variable {regs : Registers} {h : Heap} {w : Word} {name : String}

theorem Hold.grows {m m' : Machine} (hold : regs.Hold m.heap) (grows : m.Grows m') : regs.Hold m'.heap :=
  fun x member => grows.genuine (hold x member)

theorem Hold.put (hold : regs.Hold h) (genuine : h.Genuine w) (name : String) : (regs.put name w).Hold h :=
  List.forall_mem_cons.2 ⟨genuine, fun x member => hold x (List.mem_filter.1 member).1⟩

theorem Hold.lookup (hold : regs.Hold h) (here : regs.lookup name = some w) : h.Genuine w := by
  obtain ⟨before, after, split, _⟩ := List.lookup_eq_some_iff.1 here
  exact hold (name, w) (by simp [split])

theorem Hold.append {regs' : Registers} (hold : regs.Hold h) (hold' : regs'.Hold h) :
    Registers.Hold (regs ++ regs') h :=
  List.forall_mem_append.2 ⟨hold, hold'⟩

/-- Registers named after the places of values in a list. -/
theorem hold_zipIdx {ws : List Word} (genuine : ∀ w ∈ ws, h.Genuine w) (name : Nat → String) :
    Registers.Hold (ws.zipIdx.map fun (w, i) => (name i, w)) h := by
  intro x member
  obtain ⟨⟨w, i⟩, listed, rfl⟩ := List.mem_map.1 member
  exact genuine w (List.fst_mem_of_mem_zipIdx listed)

end Registers

theorem Session.Sound.grown {S : Setting} {s : Session} {m : Machine} (sound : s.Sound S)
    (grown : s.machine.Grows m ∧ m.Sound S) : Session.Sound S { s with machine := m } :=
  ⟨grown.2, sound.registers.grows grown.1⟩

namespace Exec

section

variable {α : Type} {s : Session}

theorem ends_lift (act : Run α) {ok : α → Session → Prop} {err : Fault → Session → Prop} :
    Act.Ends (lift act) s ok err ↔
      act.Ends s.machine (fun a m => ok a { s with machine := m }) fun f m => err f { s with machine := m } := by
  unfold Act.Ends Run.Ends lift
  cases act s.machine <;> rfl

theorem ends_withRegisters (regs : Registers) (act : Exec α) {m : Machine} {ok : α → Machine → Prop}
    {err : Fault → Machine → Prop} : (withRegisters regs act).Ends m ok err ↔
      Act.Ends act ⟨m, regs⟩ (fun a s => ok a s.machine) fun f s => err f s.machine := by
  unfold Act.Ends Run.Ends withRegisters
  cases act ⟨m, regs⟩ <;> rfl

/-- Only violations are caught. -/
theorem ends_protect (act : Exec α) {ok : Except Violation α → Session → Prop} {err : Fault → Session → Prop}
    (ends : Act.Ends act s (fun a s' => ok (.ok a) s') fun f s' =>
      (∀ v, f = .violation v →
        ok (.error v) { s' with machine := s'.machine.recover s.machine.args.length s.machine.depth }) ∧
      ((∀ v, f ≠ .violation v) → err f s')) : Act.Ends (protect act) s ok err := by
  unfold Act.Ends protect at *
  cases ended : act s with
  | ok a s' =>
    rw [ended] at ends
    exact ends
  | error f s' =>
    rw [ended] at ends
    cases f with
    | violation v => exact ends.1 v rfl
    | misuse | broken | exhausted => exact ends.2 (by rintro v ⟨⟩)

end

variable {α β : Type} {S : Setting} {s : Session} {ok : α → Machine → Prop}

def Safe (S : Setting) (act : Exec α) (s : Session) (ok : α → Machine → Prop) : Prop :=
  Act.Ends act s (fun a s' => (s.machine.Grows s'.machine ∧ s'.Sound S) ∧ ok a s'.machine)
    fun f s' => f.Fair s'.machine ∧ s.machine.Grows s'.machine ∧ s'.Sound S

namespace Safe

theorem pure {a : α} (sound : s.Sound S) (here : ok a s.machine) : Safe S (pure a) s ok :=
  ⟨⟨.refl sound.machine.valid, sound⟩, here⟩

theorem bind {act : Exec β} {next : β → Exec α} {mid : β → Machine → Prop} (first : Safe S act s mid)
    (rest : ∀ b s', s.machine.Grows s'.machine → s'.Sound S → mid b s'.machine → Safe S (next b) s' ok) :
    Safe S (act >>= next) s ok := by
  refine (Act.ends_bind ..).2 (first.mono ?_ fun _ _ fault => fault)
  rintro b s' ⟨⟨grows, sound⟩, here⟩
  refine (rest b s' grows sound here).mono ?_ ?_
  · rintro a s'' ⟨⟨grows', sound'⟩, done⟩
    exact ⟨⟨grows.trans grows', sound'⟩, done⟩
  · rintro f s'' ⟨fair, grows', sound'⟩
    exact ⟨fair, grows.trans grows', sound'⟩

theorem get {next : Session → Exec α} (rest : Safe S (next s) s ok) : Safe S (get >>= next) s ok := rest

theorem discard {act : Exec β} {mid : β → Machine → Prop} (safe : Safe S act s mid) :
    Safe S (discard act) s fun _ _ => True :=
  safe.bind fun _ _ _ sound _ => .pure sound trivial

theorem lift {act : Run α} (sound : s.Sound S) (safe : Run.Safe S act s.machine ok) :
    Safe S (liftM act : Exec α) s ok := by
  refine (ends_lift act).2 (Run.Ends.mono safe ?_ ?_)
  · rintro a m ⟨grown, here⟩
    exact ⟨⟨grown.1, sound.grown grown⟩, here⟩
  · rintro f m ⟨fair, grown⟩
    exact ⟨fair, grown.1, sound.grown grown⟩

/-- An action of the machine, and what comes after it. -/
theorem run {act : Run β} {next : β → Exec α} {mid : β → Machine → Prop} (sound : s.Sound S)
    (safe : Run.Safe S act s.machine mid)
    (rest : ∀ b s', s.machine.Grows s'.machine → s'.Sound S → mid b s'.machine → Safe S (next b) s' ok) :
    Safe S (liftM act >>= next) s ok :=
  (lift sound safe).bind rest

theorem misuse {e : Misuse} {next : β → Exec α} (sound : s.Sound S) (fair : (Fault.misuse e).Fair s.machine) :
    Safe S (liftM (Run.misuse e : Run β) >>= next) s ok :=
  ⟨fair, .refl sound.machine.valid, sound⟩

/-- Registers of its own are gone when an action ends. -/
theorem within {act : Exec α} {m : Machine} {regs : Registers} (safe : Safe S act ⟨m, regs⟩ ok) :
    Run.Safe S (withRegisters regs act) m ok := by
  refine (ends_withRegisters regs act).2 (Act.Ends.mono safe ?_ ?_)
  · rintro a s ⟨⟨grows, sound⟩, here⟩
    exact ⟨⟨grows, sound.machine⟩, here⟩
  · rintro f s ⟨fair, grows, sound⟩
    exact ⟨fair, grows, sound.machine⟩

/-- What is left of a violation that was caught is a sound session. -/
theorem protect {act : Exec α} (safe : Safe S act s ok) : Safe S (protect act) s fun _ _ => True := by
  refine ends_protect act (Act.Ends.mono safe (fun _ _ done => ⟨done.1, trivial⟩) ?_)
  rintro f s' ⟨fair, grows, sound⟩
  refine ⟨fun v _ => ?_, fun _ => ⟨fair, grows, sound⟩⟩
  have recovered := sound.machine.recover s.machine.args.length s.machine.depth
  exact ⟨⟨grows.trans recovered.1, sound.grown recovered⟩, trivial⟩

/-- A loop keeps the session sound if its body does. -/
theorem forM {ι : Type} {f : ι → Exec PUnit} {xs : List ι} (sound : s.Sound S)
    (each : ∀ x ∈ xs, ∀ s', s.machine.Grows s'.machine → s'.Sound S → Safe S (f x) s' fun _ _ => True) :
    Safe S (xs.forM f) s fun _ _ => True := by
  induction xs generalizing s with
  | nil => exact .pure sound trivial
  | cons x xs ih =>
    change Safe S (f x >>= fun _ => xs.forM f) s _
    refine (each x List.mem_cons_self s (.refl sound.machine.valid) sound).bind fun _ s' grows sound' _ => ?_
    exact ih sound' fun y member s'' grows' => each y (List.mem_cons_of_mem _ member) s'' (grows.trans grows')

end Safe

end Exec

/-- A step of the top level ends as the run of its operation does, under protection or not. -/
theorem Session.perform_ends {s : Session} {fuel : Nat} {scope : TypeScope} {step : Step}
    (failed : Fault → Session → Prop) (left : Session → Prop)
    (plain : Act.Ends (step.run fuel ⟨scope, none⟩) { s with machine := { s.machine with trace := [] } }
      (fun _ => left) fun f s' => failed f s' ∧ left s')
    (caught : Act.Ends (Exec.protect (step.run fuel ⟨scope, none⟩)) { s with machine := { s.machine with trace := [] } }
      (fun result s' => (∀ v, result = .error v → failed (.violation v) s') ∧ left s')
      fun f s' => failed f s' ∧ left s') (guarded : Bool) :
    (∀ f, (s.perform fuel scope guarded step).1.result = .error f → failed f (s.perform fuel scope guarded step).2) ∧
      left (s.perform fuel scope guarded step).2 := by
  unfold perform
  cases guarded with
  | false =>
    cases ended : step.run fuel ⟨scope, none⟩ { s with machine := { s.machine with trace := [] } } with
    | ok answer s' =>
      simp only [ended]
      exact ⟨nofun, plain.of_ok ended⟩
    | error f s' =>
      simp only [ended]
      obtain ⟨fails, leaves⟩ := plain.of_error ended
      exact ⟨fun _ same => Except.error.inj same ▸ fails, leaves⟩
  | true =>
    cases ended : Exec.protect (step.run fuel ⟨scope, none⟩)
        { s with machine := { s.machine with trace := [] } } with
    | ok result s' =>
      simp only [ended]
      obtain ⟨fails, leaves⟩ := caught.of_ok ended
      cases result with
      | ok answer => exact ⟨nofun, leaves⟩
      | error v => exact ⟨fun _ same => Except.error.inj same ▸ fails v rfl, leaves⟩
    | error f s' =>
      simp only [ended]
      obtain ⟨fails, leaves⟩ := caught.of_error ended
      exact ⟨fun _ same => Except.error.inj same ▸ fails, leaves⟩

end Gradual
