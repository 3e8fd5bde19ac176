import Gradual.Property.Names

/-! Layouts: the fixed places of an object's properties. A layout only grows, and once published it
is frozen, because other records may refer to the slots it describes. -/
namespace Gradual

structure Layout (Slot : Type) where
  /-- Properties and their slots in the order of installation. -/
  entries : List (PropId × Slot)
  published : Bool
  deriving DecidableEq, Repr

inductive LayoutError where
  | published (id : PropId)
  | occupied (id : PropId)
  deriving DecidableEq, Repr

def LayoutError.message : LayoutError → String
  | published id => s!"Layout.Install: layout is published (property {id})"
  | occupied id => s!"Layout.Install: property {id} already has a slot"

namespace Layout

variable {Slot : Type}

def empty : Layout Slot := ⟨[], false⟩

def slot? (l : Layout Slot) (id : PropId) : Option Slot := l.entries.lookup id

def size (l : Layout Slot) : Nat := l.entries.length

def install (l : Layout Slot) (id : PropId) (slot : Slot) : Except LayoutError (Layout Slot) :=
  if l.published then .error (.published id)
  else if (l.slot? id).isSome then .error (.occupied id)
  else .ok { l with entries := l.entries ++ [(id, slot)] }

def publish (l : Layout Slot) : Layout Slot := { l with published := true }

/-- Properties in the order given take the slots from `next` on. -/
def place (l : Layout Nat) (next : Nat) : List PropId → Except LayoutError (Layout Nat)
  | [] => .ok l
  | id :: rest => do
    let l ← l.install id next
    l.place (next + 1) rest

/-- The published layout that places the given properties one after the other. -/
def ofProperties (ids : List PropId) : Except LayoutError (Layout Nat) :=
  (empty.place 0 ids).map publish

end Layout

end Gradual
