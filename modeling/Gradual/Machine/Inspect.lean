import Gradual.Machine.Basic

/-! A view of the machine for its host: what a record, an array or the limits look like from
outside. -/
namespace Gradual

structure ArrayState where
  size : Nat
  capacity : Nat
  headroom : Nat
  elems : List String

structure LayoutState where
  entries : List (PropId × Nat)
  published : Bool

structure SlotState where
  /-- Slots up to the last one that is not undefined. -/
  shown : List String
  count : Nat

structure CodeState where
  arity : Int
  env : Option (List String)
  target : Option String

structure RecordState where
  ref : Ref
  kind : RecordKind
  value : String
  tag : Option String
  proto : Option String
  layout : Option LayoutState
  migrating : Bool
  slots : Option SlotState
  dyn : Option (List (String × String))
  code : Option CodeState
  prototype : Option String
  array : Option ArrayState
  text : Option String
  box : Option String

namespace Run

def shown (w : Word) : Run String := do return (← decode w).shown

def shownRef (ref : Ref) : Run String := do return ((← recordAt ref).value ref).shown

/-- Applies an action to the value that is there. -/
def onSome (f : α → Run β) : Option α → Run (Option β)
  | none => return none
  | some a => do return some (← f a)

def arrayState (d : Deque) : Run ArrayState := do
  return ⟨d.size, d.capacity, d.headroom, ← d.toList.mapM shown⟩

def shownSlot : Slot → Run String
  | .here w => shown w
  | .forward owner index => return "alias " ++ toString owner ++ "/" ++ toString index

def slotState (slots : Array Slot) : Run SlotState := do
  let texts ← slots.toList.mapM shownSlot
  return ⟨(texts.reverse.dropWhile (· = "undefined")).reverse, slots.size⟩

def storeState (s : PropertyStore) : Run (List (String × String)) := do
  let sorted := s.table.toList.mergeSort fun a b => a.1 ≤ b.1
  sorted.mapM fun (key, w) => do return (key, ← shown w)

def codeState (code : Code) : Run CodeState := do
  let arity : Int := match code.arity? with
    | some n => n
    | none => -1
  match code with
  | .typed _ _ env | .untyped _ env => return ⟨arity, ← onSome (·.mapM shown) env, none⟩
  | .importing _ wrapped t | .exporting wrapped t =>
    return ⟨arity, some [← shownRef wrapped], some (← format (some t))⟩

def recordState (ref : Ref) (r : Record) : Run RecordState := do
  let slots := match r.body with
    | .object slots => some slots
    | _ => none
  let text := match r.body with
    | .string s => some s
    | _ => none
  let cell := match r.body with
    | .box => some r.cell
    | _ => none
  return {
    ref
    kind := r.kind
    value := (r.value ref).shown
    tag := ← onSome (fun t => format (some t)) r.tag
    proto := ← onSome shownRef r.proto
    layout := r.layout.map fun l => ⟨l.table.entries, l.table.published⟩
    migrating := r.migrating
    slots := ← onSome slotState slots
    dyn := ← onSome storeState r.dyn
    code := ← onSome codeState r.code?
    prototype := ← onSome shownRef r.prototype?
    array := ← onSome arrayState r.elems?
    text
    box := ← onSome shown cell }

def dump (w : Word) : Run (Option RecordState) := do
  onSome (fun (ref, r) => recordState ref r) (← record? w)

def dumpAll : Run (List RecordState) := do
  let size := (← get).heap.size
  (List.range' 1 size).mapM fun ref => do recordState ref (← recordAt ref)

/-- Whether two records share one layout; two records without a layout do. -/
def sameLayout (a b : Word) : Run Bool := do
  match ← record? a, ← record? b with
  | some (_, r), some (_, s) => return r.layout.map (·.origin) = s.layout.map (·.origin)
  | _, _ => broken

end Run

end Gradual
