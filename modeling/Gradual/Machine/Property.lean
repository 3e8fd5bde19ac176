import Gradual.Machine.Basic

/-!
Properties. An own property is in a fixed slot if the layout has one for it and in the property store
otherwise. Reads go on along the prototype chain; writes never leave the object.
-/
namespace Gradual.Run

/-- The record of an object or closure; other values have no properties. -/
def propRecord (operation : String) (obj : Word) : Run (Ref × Record) := do
  match ← decode obj with
  | .object ref | .closure ref => return (ref, ← recordAt ref)
  | v => violate (.wrongOperand operation v.kind)

/-- The value of a fixed slot, with forwarding resolved. -/
def readSlot (r : Record) (i : Nat) : Run Word := do
  match r.slots[i]?.bind (← get).heap.resolve with
  | some w => return w
  | none => broken

def lookupOwn (r : Record) (id : PropId) : Run (Option Word) := do
  match r.slotOf? id with
  | some slot => return some (← readSlot r slot)
  | none =>
    if r.dyn.isSome then return r.dynGet? (← propName id)
    else return none

/-- The first record of the list that has the property decides. -/
def lookupAlong (id : PropId) : List Ref → Run Word
  | [] => return Word.undefined
  | ref :: rest => do
    match ← lookupOwn (← recordAt ref) id with
    | some w => return w
    | none => lookupAlong id rest

/-- Reads a property of the object or its prototypes, undefined if none has it. -/
def getProp (obj : Word) (id : PropId) : Run Word := do
  let (ref, _) ← propRecord "property read" obj
  lookupAlong id ((← get).heap.chain (some ref))

/-- Makes a store for a record that has none. -/
def openStore (ref : Ref) : Run Unit := do
  let hash := (← get).hash
  updateRecord ref (·.withStore hash)

/-- Writes an own property. A forwarding slot becomes a slot of its own. -/
def setProp (obj : Word) (id : PropId) (w : Word) : Run Unit := do
  if (← decode w).kind = .box then misuse .boxWritten
  let (ref, r) ← propRecord "property write" obj
  match r.slotOf? id with
  | some slot =>
    if slot < r.slots.size then updateRecord ref (·.setSlot slot (.here w)) else broken
  | none =>
    -- the store exists from here on, whatever the name turns out to be
    openStore ref
    let name ← propName id
    updateRecord ref (·.dynPut name w)

def getNamed (obj : Word) (name : String) : Run Word := do getProp obj (← intern name)

def setNamed (obj : Word) (name : String) (w : Word) : Run Unit := do setProp obj (← intern name) w

def hasOwn (obj : Word) (id : PropId) : Run Bool := do
  let (_, r) ← propRecord "property test" obj
  return (← lookupOwn r id).isSome

/-- Removes a property from the store; fixed slots cannot be removed. -/
def deleteProp (obj : Word) (id : PropId) : Run Bool := do
  let (ref, r) ← propRecord "property delete" obj
  if r.dyn.isNone || (r.slotOf? id).isSome then return false
  let (r, found) := r.dynErase (← propName id)
  updateRecord ref fun _ => r
  return found

/-- Own property names: those with fixed slots in layout order, and those in the store. -/
def ownKeys (obj : Word) : Run (List String × List String) := do
  let (_, r) ← propRecord "key listing" obj
  let ids := ((r.layout.map (·.table.entries)).getD []).map (·.1)
  let fixed ← ids.mapM propName
  return (fixed, (r.dyn.map (·.keys)).getD [])

/-- Links an object to a prototype; null clears the link. A link that closes a cycle is refused. -/
def setPrototype (obj proto : Word) : Run Unit := do
  let (ref, _) ← propRecord "prototype write" obj
  if (← decode proto).kind = .null then
    updateRecord ref fun r => { r with proto := none }
  else
    let (target, _) ← propRecord "prototype link" proto
    if ref ∈ (← get).heap.chain (some target) then
      violate (.prototypeCycle (← decode obj).text)
    updateRecord ref fun r => { r with proto := some target }

/-- The reference to a record that another one links to, null if there is no link. -/
def linkWord : Option Ref → Run Word
  | none => return Word.null
  | some ref => do return (← recordAt ref).word ref

def prototypeOf (obj : Word) : Run Word := do
  let (_, r) ← propRecord "prototype read" obj
  linkWord r.proto

def tagOf (w : Word) : Run (Option TypeId) := do
  return (← record? w).bind fun (_, r) => r.tag

/-- A slot holds a word, or a record and a place in it. -/
def slotBytes : Nat := 24

/-- An untyped object with so many empty slots, if memory has room for them. -/
def emptyObject (count : Nat) : Run Word := do
  if maxBytes < slotBytes * count then misuse (.allocation (slotBytes * count))
  allocate (Record.plain (.object (Array.replicate count (.here Word.undefined))))

/-- An untyped object with `n` empty slots, or as many as the limits say. -/
def newObject (n : Int) : Run Word := do
  let limits := (← get).limits
  emptyObject (if n ≤ 0 then limits.conversionSlots else n.toNat)

/-- An object of type `t` with one value for each property in the order of declaration. -/
def newLiteral (t : TypeId) (values : List Word) : Run Word := do
  match ← node t with
  | .object props =>
    if values.length ≠ props.length then misuse (.literalCount values.length props.length)
    match Layout.ofProperties (props.map (·.id)) with
    | .error e => misuse (.layout e)
    | .ok table =>
      allocate { Record.plain (.object (values.map Slot.here).toArray) with
        layout := some ⟨.literal t, table⟩, tag := some t }
  | _ => misuse .literalType

end Gradual.Run
