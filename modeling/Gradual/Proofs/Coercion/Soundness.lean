import Gradual.Proofs.Machine.Reachable

/-!
Coercion is sound: a value it returns conforms to the type asked for, in a heap where every typed object
and container still has the type on its tag.
-/
namespace Gradual

namespace Machine

variable {base : Nat} {m m' : Machine}

theorem Upright.trusted (upright : m.Upright) (truthful : m.oracle.Truthful m.types.graph m.limits.variance) :
    m.Trusted where
  upholds found tag _ _ := upright.upholds found tag
  truthful := truthful

/-- Records that had a tag go on to uphold it, and the others have settled. -/
theorem Upright.evolves (upright : m.Upright) (valid : m.Valid) (evolves : m.Evolves base none m')
    (settled : m.Settled m') : m'.Upright where
  done {ref r'} found' := by
    cases tag' : r'.tag with
    | none => exact ((evolves.valid.records found').untagged tag').2
    | some t =>
      rcases settled ref r' t found' tag' with ⟨r, found, tagged⟩ | ⟨done, _⟩
      · obtain ⟨_, same, record⟩ := evolves.records found
        cases found'.symm.trans same
        rw [(record.frozen tagged nofun).2.1]
        exact upright.done found
      · exact done
  upholds {ref r' t} found' tag' := by
    rcases settled ref r' t found' tag' with ⟨r, found, tagged⟩ | ⟨_, upholds⟩
    · obtain ⟨_, same, record⟩ := evolves.records found
      cases found'.symm.trans same
      obtain ⟨t', tag⟩ := Option.isSome_iff_exists.1 tagged
      cases (record.tag t' tag).symm.trans tag'
      exact (upright.upholds found tag).evolves valid evolves found found' tag
    · exact upholds

end Machine

namespace Run

variable {m : Machine} {w : Word} {t : TypeId}

/-- In a well-typed heap, and if the oracle tells the truth, a coercion that returns leaves a well-typed
heap and a value of the type. Otherwise it ends with a violation or a full heap. -/
theorem coerce_sound (reachable : m.Reachable) (typed : m.WellTyped)
    (truthful : m.oracle.Truthful m.types.graph m.limits.variance) (genuine : m.heap.Genuine w)
    (proper : m.types.Proper t) :
    Ends (coerce w (some t)) m (fun w' m' => m'.WellTyped ∧ m'.Conforms w' t) fun f _ => f.Expected := by
  have valid := reachable.valid
  have upright := typed.upright valid
  refine (ends_coerce valid genuine proper).mono (fun w' m' coerced => ?_) fun _ _ fault => fault.1
  obtain ⟨settled, fits⟩ := coerced.sound (upright.trusted truthful)
  have upright' := upright.evolves valid coerced.evolves settled
  exact ⟨upright'.wellTyped coerced.evolves.valid, upright'.conforms coerced.evolves.valid fits⟩

/-- The object that inherits its property takes a type for it, and shares the slot. -/
theorem coerce_sound_inheriting :
    ∃ m', coerce (Word.objectRef 2) (some 7) Machine.inheriting = .ok (Word.objectRef 2) m' ∧
    m'.WellTyped ∧ m'.Conforms (Word.objectRef 2) 7 := by
  have sound := coerce_sound (t := 7) Machine.inheriting_reachable Machine.inheriting_wellTyped
    (Oracle.silent_truthful _ _) (Machine.inheriting_genuine 2 (by decide)) (Machine.inheriting_proper 7 (by decide))
  exact ⟨_, rfl, sound⟩

end Run

end Gradual
