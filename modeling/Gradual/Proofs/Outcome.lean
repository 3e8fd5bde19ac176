/-!
How an action with a state ends: with a value or with an error, and in either case in the state it has
reached. The lemmas carry a statement about both ends through a `do` block.
-/
namespace Gradual.Act

variable {ε σ α β : Type} {s : σ} {ok : α → σ → Prop} {err : ε → σ → Prop}

/-- Started in `s`, the action ends with a value as `ok` says or with an error as `err` says. -/
def Ends (act : EStateM ε σ α) (s : σ) (ok : α → σ → Prop) (err : ε → σ → Prop) : Prop :=
  match act s with
  | .ok a s' => ok a s'
  | .error e s' => err e s'

theorem Ends.mono {act : EStateM ε σ α} {ok' : α → σ → Prop} {err' : ε → σ → Prop} (ends : Ends act s ok err)
    (value : ∀ a s', ok a s' → ok' a s') (error : ∀ e s', err e s' → err' e s') : Ends act s ok' err' := by
  unfold Ends at ends ⊢
  split at ends
  · exact value _ _ ends
  · exact error _ _ ends

theorem Ends.trivial {act : EStateM ε σ α} : Ends act s (fun _ _ => True) fun _ _ => True := by
  unfold Ends
  split <;> exact True.intro

theorem Ends.of_ok {act : EStateM ε σ α} {a : α} {s' : σ} (ends : Ends act s ok err) (h : act s = .ok a s') :
    ok a s' := by
  simpa [Ends, h] using ends

theorem Ends.of_error {act : EStateM ε σ α} {e : ε} {s' : σ} (ends : Ends act s ok err) (h : act s = .error e s') :
    err e s' := by
  simpa [Ends, h] using ends

@[simp] theorem ends_pure (a : α) : Ends (pure a) s ok err ↔ ok a s := Iff.rfl

@[simp] theorem ends_throw (e : ε) : Ends (throw e : EStateM ε σ α) s ok err ↔ err e s := Iff.rfl

@[simp] theorem ends_modifyGet (f : σ → α × σ) : Ends (modifyGet f : EStateM ε σ α) s ok err ↔ ok (f s).1 (f s).2 :=
  Iff.rfl

@[simp] theorem ends_modify {ok : PUnit → σ → Prop} (f : σ → σ) :
    Ends (modify f : EStateM ε σ PUnit) s ok err ↔ ok ⟨⟩ (f s) := Iff.rfl

@[simp] theorem ends_bind (act : EStateM ε σ β) (next : β → EStateM ε σ α) :
    Ends (act >>= next) s ok err ↔ Ends act s (fun b s' => Ends (next b) s' ok err) err := by
  simp only [Ends, bind, EStateM.bind]
  cases act s <;> rfl

end Gradual.Act
