import Gradual.Proofs.Program.Height

/-!
Failures leak no capacity. A program that is stopped by a violation gives back the coercion depth and, under
protection, the argument stack; and what comes later does not depend on whether there was a failure before. Main
statement: `protect_recovers`.
-/
namespace Gradual

/-- A violation that is caught leaves the depth as it was, the flag set, and no argument on the stack that was not
there before. -/
theorem Exec.Above.recovers {α : Type} {s s₁ : Session} {act : Exec α} {v : Violation} (above : Above 0 act s)
    (raised : act s = .error (.violation v) s₁) :
    ∃ s', Exec.protect act s = .ok (.error v) s' ∧ s'.machine.depth = s.machine.depth ∧ s'.machine.dirty = true ∧
      (Above s.machine.args.length act s → s'.machine.args = s.machine.args) := by
  have restored := above.restores.of_error raised
  refine ⟨{ s₁ with machine := s₁.machine.recover s.machine.args.length s.machine.depth }, ?_, rfl, ?_, ?_⟩
  · simp only [Exec.protect, raised]
  · exact restored.2 v rfl
  · intro untouched
    obtain ⟨pushed, stack⟩ := (untouched.keeps List.suffix_rfl).of_error raised
    change s₁.machine.args.drop (s₁.machine.args.length - s.machine.args.length) = s.machine.args
    rw [← stack, List.length_append, Nat.add_sub_cancel, List.drop_left]

namespace Session

variable {scope : TypeScope} {s t : Session}

inductive Ran : Session → Prop where
  | initial (hash : String → UInt64) (limits : Limits) (oracle : Oracle) (types : TypeStore) :
      Ran (Session.initial (Machine.initial hash limits oracle types))
  | step {s : Session} (ran : Ran s) (fuel : Nat) (scope : TypeScope) (guarded : Bool) (step : Step) :
      Ran (s.perform fuel scope guarded step).2

theorem perform_depth (fuel : Nat) (guarded : Bool) (step : Step) :
    (s.perform fuel scope guarded step).2.machine.depth = s.machine.depth := by
  have above := Exec.run_above fuel ⟨scope, none⟩ step { s with machine := { s.machine with trace := [] } }
  have kept := perform_ends (fun _ _ => True) (·.machine.depth = s.machine.depth)
    (above.restores.mono (fun _ _ same => same) fun _ _ same => ⟨trivial, same.1⟩)
    ((Exec.Above.protect above).restores.mono (fun _ _ same => ⟨fun _ _ => trivial, same⟩) fun _ _ same =>
      ⟨trivial, same.1⟩) guarded
  exact kept.2

/-- What a step comes to does not depend on flag and trace. -/
theorem perform_alike (alike : s.Alike t) (fuel : Nat) (guarded : Bool) (step : Step) :
    (t.perform fuel scope guarded step).1.result = (s.perform fuel scope guarded step).1.result := by
  obtain ⟨dirty, trace, rfl⟩ := alike
  have above := Exec.run_above fuel ⟨scope, none⟩ step { s with machine := { s.machine with trace := [] } }
  have alike : Alike { s with machine := { s.machine with trace := [] } }
      { s with machine := { s.machine.reframe s.machine.args dirty trace with trace := [] } } := ⟨dirty, [], rfl⟩
  unfold perform
  cases guarded with
  | false =>
    have same := above.blind alike
    dsimp only
    generalize step.run fuel _ _ = x at same ⊢
    generalize step.run fuel _ _ = y at same ⊢
    cases same <;> rfl
  | true =>
    have same := (Exec.Above.protect above).blind alike
    dsimp only
    generalize Exec.protect _ _ = x at same ⊢
    generalize Exec.protect _ _ = y at same ⊢
    cases same with
    | ok result => cases result <;> rfl
    | error => rfl

theorem Ran.depth (ran : s.Ran) : s.machine.depth = 0 := by
  induction ran with
  | initial => rfl
  | step _ fuel scope guarded step ih => exact (perform_depth fuel guarded step).trans ih

/-- Between steps the depth of a session is that of any other. -/
theorem Ran.alike (ran : s.Ran) (ran' : t.Ran) (registers : t.registers = s.registers)
    (machine : t.machine =
      { s.machine with depth := t.machine.depth, dirty := t.machine.dirty, trace := t.machine.trace }) :
    s.Alike t := by
  refine ⟨t.machine.dirty, t.machine.trace, ?_⟩
  rw [ran'.depth, ← ran.depth] at machine
  obtain ⟨m, regs⟩ := t
  cases registers
  exact congrArg (Session.mk · _) machine

end Session

/-- Failures leak no capacity. A violation in a protected program gives back the depth, sets the flag, and leaves
the argument stack as it was unless the program took arguments that were not its own; so do other ends give back
the depth. Between the steps of a host the depth is zero, and what a step comes to is the same as in any other
session that has the same in heap, stack and last return: also in one in which nothing has ever failed. -/
theorem Exec.protect_recovers (fuel : Nat) (ctx : Context) (all : List Step) (s : Session) :
    (∀ v s₁, steps (Step.run fuel ctx) all s = .error (.violation v) s₁ →
      ∃ s', protect (steps (Step.run fuel ctx) all) s = .ok (.error v) s' ∧
        s'.machine.depth = s.machine.depth ∧ s'.machine.dirty = true ∧
        (Above s.machine.args.length (steps (Step.run fuel ctx) all) s → s'.machine.args = s.machine.args)) ∧
    (∀ s', steps (Step.run fuel ctx) all s = .ok () s' →
      protect (steps (Step.run fuel ctx) all) s = .ok (.ok ()) s' ∧ s'.machine.depth = s.machine.depth) ∧
    (∀ f s', steps (Step.run fuel ctx) all s = .error f s' → (∀ v, f ≠ .violation v) →
      protect (steps (Step.run fuel ctx) all) s = .error f s' ∧ s'.machine.depth = s.machine.depth) ∧
    (s.Ran → s.machine.depth = 0 ∧ ∀ t : Session, t.Ran → t.registers = s.registers → t.machine =
        { s.machine with depth := t.machine.depth, dirty := t.machine.dirty, trace := t.machine.trace } →
      ∀ fuel scope guarded step,
        (t.perform fuel scope guarded step).1.result = (s.perform fuel scope guarded step).1.result) := by
  have above : Above 0 (steps (Step.run fuel ctx) all) s := above_steps (run_above fuel ctx)
  refine ⟨fun v s₁ raised => above.recovers raised, fun s' returned => ?_, fun f s' failed other => ?_,
    fun ran => ⟨ran.depth, fun t ran' registers machine fuel scope guarded step => ?_⟩⟩
  · refine ⟨?_, above.restores.of_ok returned⟩
    simp only [protect, returned]
  · refine ⟨?_, (above.restores.of_error failed).1⟩
    cases f with
    | violation v => exact absurd rfl (other v)
    | misuse | broken | exhausted => simp only [protect, failed]
  · exact Session.perform_alike (ran.alike ran' registers machine) fuel guarded step

namespace Session

def waiting : Session :=
  ((Session.initial
    (Machine.initial (fun _ => 0) Limits.default Oracle.silent ⟨Graph.primitives, ⟨#[]⟩⟩)).perform 1 [] true
    (.mk (.push (.word (Word.ofInt 7))) none)).2

/-- Pushes and pops of its own, and a value that has not the type. -/
def failing : List Step :=
  [.mk (.push (.word (Word.ofInt 1))) none, .mk .pop none, .mk (.push (.word (Word.ofInt 2))) none,
    .mk (.coerce (.word (Word.ofInt 3)) (.named "string")) none]

def failed : Session := (waiting.perform 2 [] true (.mk (.branch (.word (Word.ofInt 1)) failing []) none)).2

theorem waiting_ran : waiting.Ran := .step (.initial ..) ..

theorem failing_above : Exec.Above 1 (Exec.steps (Step.run 1 ⟨[], none⟩) failing) waiting := by
  have leaves (op : Operation) (s : Session) (room : op.Leaves 1 s) :
      Exec.Above 1 (discard (Step.run 1 ⟨[], none⟩ (.mk op none))) s :=
    (Exec.perform_above (Exec.run_above 0) room).discard
  refine .bind (leaves _ _ trivial) fun _ s₁ pushed => ?_
  cases pushed
  refine .bind (leaves _ _ (Nat.le_refl 1)) fun _ s₂ _ => ?_
  exact .bind (leaves _ _ trivial) fun _ s₃ _ => .bind (leaves _ _ trivial) fun _ s₄ _ => .pure _ s₄

theorem failed_waiting : waiting.machine =
    { failed.machine with depth := waiting.machine.depth, dirty := false, trace := waiting.machine.trace } := by
  rfl

end Session

/-- The argument that was waiting is still there, and an operation on it goes as if there had been no failure. -/
theorem Exec.protect_recovers_waiting :
    (∃ v s', protect (steps (Step.run 1 ⟨[], none⟩) Session.failing) Session.waiting = .ok (.error v) s' ∧
      s'.machine.depth = 0 ∧ s'.machine.dirty = true ∧ s'.machine.args = [Word.ofInt 7]) ∧
    Session.failed.machine.depth = 0 ∧ Session.failed.machine.dirty = true ∧
      ∀ fuel scope guarded step, (Session.waiting.perform fuel scope guarded step).1.result =
        (Session.failed.perform fuel scope guarded step).1.result := by
  constructor
  · have raised : ∃ s₁, steps (Step.run 1 ⟨[], none⟩) Session.failing Session.waiting =
        .error (.violation (.mismatch "3" "string")) s₁ := ⟨_, rfl⟩
    obtain ⟨s₁, raised⟩ := raised
    obtain ⟨s', caught, depth, dirty, args⟩ := (protect_recovers ..).1 _ _ raised
    exact ⟨_, s', caught, depth, dirty, args Session.failing_above⟩
  · have ran : Session.failed.Ran := .step Session.waiting_ran ..
    obtain ⟨depth, same⟩ := (protect_recovers 0 ⟨[], none⟩ [] Session.failed).2.2.2 ran
    exact ⟨depth, rfl, same Session.waiting Session.waiting_ran rfl Session.failed_waiting⟩

end Gradual
