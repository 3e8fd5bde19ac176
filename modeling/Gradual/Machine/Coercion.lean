import Gradual.Machine.Container
import Gradual.Machine.Property

/-!
Coercion: making a value from untyped code usable at a type.

Primitives are checked and never converted, and undefined passes for every type. A typed record must
already have a suitable type. An untyped object or array is changed in place: it takes the type as its
tag, and an object also takes a layout with the properties the type asks for. An untyped closure is
wrapped. The tag goes on before the parts are coerced, so that a cycle leading back finds the record
typed.

`coerceStep` coerces one value given how to coerce its parts, and `coerceWithin` ties the knot: each
level of nesting uses up one of the coercions that the limits allow.
-/
namespace Gradual.Run

/-- Coerces a part of a value to a type, which may be missing. -/
abbrev Recur := Word → Child → Run Word

/-- A verdict of the checker. An overflow is a violation. -/
def verdict (rel : Relation) (a b : Child) : Run Bool := do
  let m ← get
  match (m.checker.decide m.types.graph rel a b).result with
  | .ok answer => return answer
  | .error .overflow => violate (.hypotheses rel (m.format a) (m.format b))
  | .error (.missing side) => misuse (.missingType side)

/-- The most arguments a typed closure can take. -/
def maxArity : Nat := 4

/-- Wraps the untyped closure `r` as a closure of type `t`. -/
def importClosure (ref : Ref) (t : TypeId) (sig : Signature) : Run Word := do
  let count := sig.explicitCount
  if count > maxArity then
    violate (.noTrampoline count (← format (some t)))
  if count < 0 then broken
  allocate { Record.plain (.closure (.importing count.toNat ref t)) with tag := some t }

def coerceClosure (w : Word) (t : TypeId) (sig : Signature) : Run Word := do
  match ← decode w with
  | .null => return w
  | .closure ref =>
    match (← recordAt ref).tag with
    | some tag =>
      if tag = t then return w
      if ← verdict .subtype (some tag) (some t) then return w
      mismatch w (some t)
    | none =>
      -- untyped code cannot promise the prototype of a constructor type
      if sig.code = .constructor then mismatch w (some t)
      importClosure ref t sig
  | _ => mismatch w (some t)

/-- The slot for the next property of a record that is being given a layout. -/
def nextSlot (ref : Ref) (name : String) : Run Nat := do
  let r ← recordAt ref
  let slot := r.fixedSize
  if slot ≥ r.slots.size then violate (.noRoom (r.value ref).text r.slots.size name)
  return slot

def setSlot (ref : Ref) (slot : Nat) (s : Slot) : Run Unit := do
  if slot < (← recordAt ref).slots.size then updateRecord ref (·.setSlot slot s) else broken

/-- Enters a property into the layout of a record. -/
def install (ref : Ref) (id : PropId) (slot : Nat) : Run Unit := do
  match (← recordAt ref).layout with
  | none => broken
  | some layout =>
    match layout.table.install id slot with
    | .error e => misuse (.layout e)
    | .ok table => updateRecord ref fun r => { r with layout := some { layout with table } }

def publish (ref : Ref) : Run Unit :=
  updateRecord ref fun r =>
    { r with layout := r.layout.map fun l => { l with table := l.table.publish } }

/-- Whether the owner's own type already promises the property at an equal type. -/
def promises (owner : Record) (p : Property) : Run Bool := do
  if owner.migrating then return false
  match owner.tag with
  | none => return false
  | some tag =>
    match (← node tag).property? p.id with
    | none => return false
    | some q => verdict .equal q.type p.type

/-- Coerces the value in a fixed slot of a prototype. A converted value is written back only into a
slot of its own of a record that does not promise a type for it yet. -/
def coerceSlot (recur : Recur) (owner : Ref) (slot : Nat) (p : Property) : Run Unit := do
  let before ← recordAt owner
  if ← promises before p then return
  let w ← readSlot before slot
  let converted ← recur w p.type
  if converted = w then return
  let after ← recordAt owner
  if after.slots[slot]?.any Slot.isForward || (after.tag.isSome && !after.migrating) then
    let name ← propName p.id
    violate (.needsConversion name (after.value owner).text (← format p.type))
  setSlot owner slot (.here converted)

/-- Finds a read-only property along the prototypes `refs` of `ref`. A fixed slot of the nearest one
is shared through a forwarding slot; anything further up is left where it is. -/
def inherit (recur : Recur) (ref : Ref) (p : Property) (name : String) : List Ref → Run Bool
  | [] => return false
  | q :: rest => do
    let r ← recordAt q
    match r.slotOf? p.id with
    | some slot =>
      coerceSlot recur q slot p
      let nearest := (← recordAt ref).proto = some q
      if nearest && !(← recordAt q).migrating then
        let own ← nextSlot ref name
        publish q
        setSlot ref own (.forward q slot)
        install ref p.id own
      return true
    | none =>
      match r.dynGet? name with
      | some w =>
        let converted ← recur w p.type
        updateRecord q (·.dynPut name converted)
        return true
      | none => inherit recur ref p name rest

/-- Places one property of the type: its own value moves from the store into a slot, and a read-only
property may come from a prototype. -/
def migrateProp (recur : Recur) (ref : Ref) (p : Property) : Run Unit := do
  let name ← propName p.id
  let r ← recordAt ref
  match r.dynGet? name with
  | some w =>
    let slot ← nextSlot ref name
    let converted ← recur w p.type
    setSlot ref slot (.here converted)
    install ref p.id slot
    updateRecord ref fun r => (r.dynErase name).1
  | none =>
    if p.readOnly then
      if ← inherit recur ref p name ((← get).heap.chain r.proto) then return
    violate (.missingProperty (r.value ref).text name (← format p.type))

/-- Gives an untyped object the type `t` and a layout for its properties, writable ones first. -/
def migrate (recur : Recur) (ref : Ref) (t : TypeId) : Run Unit := do
  updateRecord ref fun r =>
    { r with tag := some t, layout := some ⟨.migrated ref, Layout.empty⟩, migrating := true }
  let n ← node t
  n.readWrite.forM (migrateProp recur ref)
  n.readOnly.forM (migrateProp recur ref)
  updateRecord ref fun r => { r with migrating := false }
  publish ref

def coerceObject (recur : Recur) (w : Word) (t : TypeId) : Run Word := do
  match ← decode w with
  | .null => return w
  | .object ref | .closure ref =>
    let r ← recordAt ref
    match r.tag with
    | some tag =>
      if tag = t then return w
      if ← verdict .subtype (some tag) (some t) then return w
      mismatch w (some t)
    | none =>
      if r.kind ≠ .object then mismatch w (some t)
      migrate recur ref t
      return w
  | _ => mismatch w (some t)

/-- Whether a tagged container has a type equal to `t`. -/
def sameContainer (w : Word) (tag t : TypeId) : Run Word := do
  if tag = t then return w
  if ← verdict .equal (some tag) (some t) then return w
  mismatch w (some t)

def coerceElem (recur : Recur) (ref : Ref) (elem : Child) (i : Nat) : Run Unit := do
  match (← recordAt ref).elems? with
  | none => broken
  | some d =>
    let converted ← recur (d.get i) elem
    updateRecord ref fun r =>
      match r.elems? with
      | some d => r.setElems (d.store i converted)
      | none => r

def coerceArray (recur : Recur) (w : Word) (t : TypeId) (elem : Child) : Run Word := do
  if (← decode w).kind = .null then return w
  match ← record? w with
  | none => mismatch w (some t)
  | some (ref, r) =>
    match r.elems? with
    | none => mismatch w (some t)
    | some d =>
      match r.tag with
      | some tag => sameContainer w tag t
      | none =>
        updateRecord ref fun r => { r with tag := some t }
        (List.range d.size).forM (coerceElem recur ref elem)
        return w

def coerceEntry (recur : Recur) (ref : Ref) (elem : Child) (key : String) : Run Unit := do
  match (← recordAt ref).dynGet? key with
  | none => return
  | some w =>
    let converted ← recur w elem
    updateRecord ref (·.dynPut key converted)

def coerceMap (recur : Recur) (w : Word) (t : TypeId) (elem : Child) : Run Word := do
  match ← decode w with
  | .null => return w
  | .object ref =>
    let r ← recordAt ref
    match r.tag with
    | some tag => sameContainer w tag t
    | none =>
      if r.kind ≠ .object then mismatch w (some t)
      updateRecord ref fun r => { r with tag := some t }
      ((r.dyn.map (·.keys)).getD []).forM (coerceEntry recur ref elem)
      return w
  | _ => mismatch w (some t)

/-- Whether a value already has a primitive type. -/
def hasPrim : Value → Prim → Bool
  | .int _, .int | .double _, .float | .bool _, .bool | .string _, .string => true
  | _, _ => false

def coerceStep (recur : Recur) (w : Word) (t : TypeId) : Run Word := do
  if w = Word.undefined then return w
  match ← node t with
  | .prim .top => return w
  | .prim p => if hasPrim (← decode w) p then return w else mismatch w (some t)
  | .closure sig => coerceClosure w t sig
  | .object _ => coerceObject recur w t
  | .array elem => coerceArray recur w t elem
  | .map elem => coerceMap recur w t elem
  | .odd _ => mismatch w (some t)

/-- Counts one more coercion in progress while the action runs, however it ends. -/
def nested (act : Run α) : Run α := fun m =>
  match act { m with depth := m.depth + 1 } with
  | .ok a m' => .ok a { m' with depth := m'.depth - 1 }
  | .error f m' => .error f { m' with depth := m'.depth - 1 }

/-- Coercion with `budget` levels of nesting left. -/
def coerceWithin : Nat → Word → Child → Run Word
  | _, _, none => misuse .untypedCoercion
  | 0, _, some _ => nested do violate (.coercionDepth (← get).limits.coerceDepth)
  | budget + 1, w, some t => nested (coerceStep (coerceWithin budget) w t)

def coerce (w : Word) (t : Child) : Run Word := do
  let m ← get
  coerceWithin (m.limits.coerceDepth - m.depth) w t

/-- Reads a box written by untyped code as a value of type `t`. The coerced value stays in the box, so
that later reads find it typed. -/
def accessBox (box : Word) (t : Child) : Run Word := do
  let w ← boxGet box
  let converted ← coerce w t
  if converted ≠ w then boxSet box converted
  return converted

/-- Reads a box written by untyped code as an int. -/
def accessInt (box : Word) : Run Int32 := do
  let w ← accessBox box (some Prim.int.typeId)
  match ← decode w with
  | .int n => return n
  | _ => mismatch w (some Prim.int.typeId)

end Gradual.Run
