/-!
Operations made one after the other. A step function takes a state and an operation to an answer and the next state;
replaying a list of operations gives the list of answers and the state in the end. Two step functions that answer alike
in related states, and lead from related states to related ones, answer alike forever.
-/
namespace Gradual

variable {ι ο σ τ : Type}

/-- The answers to operations made one after the other, and the state in the end. -/
def replay (step : σ → ι → ο × σ) : List ι → σ → List ο × σ
  | [], s => ([], s)
  | op :: rest, s => ((step s op).1 :: (replay step rest (step s op).2).1, (replay step rest (step s op).2).2)

def replay? (step? : σ → ι → Option (ο × σ)) : List ι → σ → Option (List ο × σ)
  | [], s => some ([], s)
  | op :: rest, s =>
    (step? s op).bind fun first => (replay? step? rest first.2).map fun later => (first.1 :: later.1, later.2)

theorem replay_append (step : σ → ι → ο × σ) (first second : List ι) (s : σ) :
    (replay step (first ++ second) s).2 = (replay step second (replay step first s).2).2 := by
  induction first generalizing s with
  | nil => rfl
  | cons op first ih => exact ih _

/-- Steps that do not give up as long as an invariant holds, which they keep. -/
theorem replay?_eq_some {step? : σ → ι → Option (ο × σ)} {step : σ → ι → ο × σ} (Inv : σ → Prop)
    (one : ∀ s op, Inv s → step? s op = some (step s op) ∧ Inv (step s op).2) (ops : List ι) {s : σ} (inv : Inv s) :
    replay? step? ops s = some (replay step ops s) := by
  induction ops generalizing s with
  | nil => rfl
  | cons op ops ih =>
    obtain ⟨here, kept⟩ := one s op inv
    rw [replay?, here, Option.bind_some, ih kept]
    rfl

end Gradual
