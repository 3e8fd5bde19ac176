import Gradual.Proofs.Machine.Edits

/-!
Where the properties of a record are while values are being coerced: in slots or in the store. A migration moves them
from the store into slots, one at a time. `Machine.Tends` says what else coercions do to the places of properties, and
what they leave alone.
-/
namespace Gradual

variable {names : NameTable} {free free' : Prop} {r r' r'' : Record} {ref : Ref}

namespace Record

def Doubled (names : NameTable) (r : Record) (id : PropId) : Prop :=
  (r.slotOf? id).isSome ∧ (r.dynGet? (names.name id)).isSome

structure Orderly (r : Record) : Prop where
  store : ∀ d, r.dyn = some d → d.Placed
  untagged : r.tag = none → r.layout = none ∧ r.migrating = false

/-- What coercions leave of a record. A record that has a type keeps its keys unless it is the one whose properties are
being moved (`free`), it gets no new ones while they are, and a key that is gone has become a slot. -/
structure Tends (names : NameTable) (free : Prop) (r r' : Record) : Prop where
  proto : r'.proto = r.proto
  hasStore : r'.dyn.isSome = r.dyn.isSome
  orderly : r.Orderly → r'.Orderly
  tag : r.tag.isSome → r'.tag.isSome
  migrating : r.tag.isSome → r'.migrating = r.migrating
  slots : ∀ id, (r.slotOf? id).isSome → (r'.slotOf? id).isSome
  keys : r.tag.isSome → ¬free → ∀ name, (r.dynGet? name).isSome → (r'.dynGet? name).isSome
  only : r.tag.isSome → r.migrating = true → ∀ name, (r'.dynGet? name).isSome → (r.dynGet? name).isSome
  moved : ∀ name, (r.dynGet? name).isSome →
    (r'.dynGet? name).isSome ∨ ∃ id, names.name id = name ∧ (r'.slotOf? id).isSome

namespace Tends

theorem refl (r : Record) : r.Tends names free r where
  proto := rfl
  hasStore := rfl
  orderly := id
  tag := id
  migrating _ := rfl
  slots _ := id
  keys _ _ _ := id
  only _ _ _ := id
  moved _ := .inl

theorem trans (first : r.Tends names free r') (second : r'.Tends names free r'') : r.Tends names free r'' where
  proto := second.proto.trans first.proto
  hasStore := second.hasStore.trans first.hasStore
  orderly := second.orderly ∘ first.orderly
  tag := second.tag ∘ first.tag
  migrating tagged := (second.migrating (first.tag tagged)).trans (first.migrating tagged)
  slots id := second.slots id ∘ first.slots id
  keys tagged closed name := second.keys (first.tag tagged) closed name ∘ first.keys tagged closed name
  only tagged moving name :=
    first.only tagged moving name ∘ second.only (first.tag tagged) ((first.migrating tagged).trans moving) name
  moved name here := by
    rcases first.moved name here with stayed | ⟨id, same, slot⟩
    · exact second.moved name stayed
    · exact .inr ⟨id, same, second.slots id slot⟩

theorem weaken (tends : r.Tends names free r') (implies : free → free') : r.Tends names free' r' :=
  { tends with keys := fun tagged closed => tends.keys tagged (mt implies closed) }

/-- Moving properties is what happens to records without a type. -/
theorem close (tends : r.Tends names free r') (untagged : r.tag = none) : r.Tends names free' r' :=
  { tends with keys := fun tagged => by simp [untagged] at tagged }

end Tends

/-- A change that leaves the keys as they are. A property may get a slot if its name is no key. -/
inductive Shift (names : NameTable) (r : Record) : Record → Prop where
  | same : Shift names r r
  | slot (i : Nat) (s : Slot) : Shift names r (r.setSlot i s)
  | elems (d : Deque) : Shift names r (r.setElems d)
  | put {name : String} (w : Word) (present : (r.dynGet? name).isSome) : Shift names r (r.dynPut name w)
  | publish : Shift names r { r with layout := r.layout.map fun l => { l with table := l.table.publish } }
  | tag (t : TypeId) (untagged : r.tag = none) : Shift names r { r with tag := some t }
  | install {l : FixedLayout} {table : Layout Nat} {id : PropId} {slot : Nat} (here : r.layout = some l)
      (tagged : r.tag.isSome) (absent : r.dynGet? (names.name id) = none)
      (installed : l.table.install id slot = .ok table) : Shift names r { r with layout := some { l with table } }

theorem slotOf?_publish (id : PropId) :
    slotOf? { r with layout := r.layout.map fun l => { l with table := l.table.publish } } id = r.slotOf? id := by
  unfold slotOf?
  cases r.layout <;> rfl

/-- Entering a property into the layout gives it a slot and leaves the others theirs. -/
theorem slotOf?_install {l : FixedLayout} {table : Layout Nat} {id : PropId} {slot : Nat} (here : r.layout = some l)
    (installed : l.table.install id slot = .ok table) (x : PropId) :
    slotOf? { r with layout := some { l with table } } x = if x = id then some slot else r.slotOf? x := by
  obtain ⟨_, vacant, rfl⟩ := Layout.install_eq_ok installed
  simp only [slotOf?, here, Option.bind_some]
  exact Layout.slot?_append vacant slot x

theorem dynGet?_dynPut_isSome (orderly : r.Orderly) {name : String} (w : Word) (present : (r.dynGet? name).isSome)
    (x : String) : ((r.dynPut name w).dynGet? x).isSome = (r.dynGet? x).isSome := by
  rw [dynGet?_dynPut orderly.store]
  split
  next same => rw [same.1, present]; rfl
  next => rfl

theorem Tends.of_alike (proto : r'.proto = r.proto) (hasStore : r'.dyn.isSome = r.dyn.isSome)
    (orderly : r.Orderly → r'.Orderly) (tag : r'.tag = r.tag) (migrating : r'.migrating = r.migrating)
    (slots : ∀ id, (r.slotOf? id).isSome → (r'.slotOf? id).isSome)
    (keys : ∀ name, (r'.dynGet? name).isSome = (r.dynGet? name).isSome) : r.Tends names free r' where
  proto := proto
  hasStore := hasStore
  orderly := orderly
  tag := by rw [tag]; exact id
  migrating _ := migrating
  slots := slots
  keys _ _ name := by rw [keys]; exact id
  only _ _ name := by rw [keys]; exact id
  moved name := by rw [keys]; exact .inl

theorem Shift.tends (shift : Shift names r r') (orderly : r.Orderly) : r.Tends names free r' := by
  cases shift with
  | same => exact .refl r
  | slot i s =>
    rw [setSlot_eq]
    exact .of_alike rfl rfl (fun o => ⟨o.store, o.untagged⟩) rfl rfl (fun _ => id) fun _ => rfl
  | elems d =>
    rw [setElems_eq]
    exact .of_alike rfl rfl (fun o => ⟨o.store, o.untagged⟩) rfl rfl (fun _ => id) fun _ => rfl
  | put w present =>
    refine .of_alike rfl (dynPut_isSome _ w) (fun o => ⟨dynPut_placed o.store _ w, o.untagged⟩) rfl rfl (fun _ => id) ?_
    exact dynGet?_dynPut_isSome orderly w present
  | publish =>
    refine .of_alike rfl rfl (fun o => ⟨o.store, fun untagged => ?_⟩) rfl rfl (fun id here => ?_) fun _ => rfl
    · obtain ⟨layout, idle⟩ := o.untagged untagged
      exact ⟨by simp [layout], idle⟩
    · rwa [slotOf?_publish]
  | tag t untagged =>
    refine ⟨rfl, rfl, fun o => ⟨o.store, fun none => by cases none⟩, fun _ => rfl, ?_, fun _ => id, ?_, ?_,
      fun _ => .inl⟩
    all_goals
      intro tagged
      simp [untagged] at tagged
  | install here tagged absent installed =>
    refine .of_alike rfl rfl (fun o => ⟨o.store, fun untagged => ?_⟩) rfl rfl (fun x slot => ?_) fun _ => rfl
    · have untagged : r.tag = none := untagged
      simp [untagged] at tagged
    · rw [slotOf?_install here installed]
      split
      · rfl
      · exact slot

theorem Shift.migrating (shift : Shift names r r') : r'.migrating = r.migrating := by
  cases shift with
  | slot i s => rw [setSlot_eq]
  | elems d => rw [setElems_eq]
  | same | put | publish | tag | install => rfl

theorem Shift.doubled (shift : Shift names r r') (orderly : r.Orderly) {id : PropId} (doubled : r'.Doubled names id) :
    r.Doubled names id := by
  obtain ⟨slot, key⟩ := doubled
  cases shift with
  | same => exact ⟨slot, key⟩
  | slot i s =>
    rw [setSlot_eq] at slot key
    exact ⟨slot, key⟩
  | elems d =>
    rw [setElems_eq] at slot key
    exact ⟨slot, key⟩
  | put w present => exact ⟨slot, by rwa [dynGet?_dynPut_isSome orderly w present] at key⟩
  | publish => exact ⟨by rwa [slotOf?_publish] at slot, key⟩
  | tag t untagged => exact ⟨slot, key⟩
  | install here tagged absent installed =>
    rw [slotOf?_install here installed] at slot
    change (r.dynGet? (names.name id)).isSome at key
    split at slot
    next same =>
      rw [same, absent] at key
      cases key
    next => exact ⟨slot, key⟩

def settle (names : NameTable) (r : Record) (l : FixedLayout) (table : Layout Nat) (id : PropId) : Record :=
  (dynErase { r with layout := some { l with table } } (names.name id)).1

section

variable {l : FixedLayout} {table : Layout Nat} {id : PropId} {slot : Nat}

theorem settle_eq : r.settle names l table id =
    { r with layout := some { l with table }, dyn := (r.settle names l table id).dyn } := dynErase_eq

theorem dynGet?_settle (orderly : r.Orderly) (name : String) :
    (r.settle names l table id).dynGet? name = if name = names.name id then none else r.dynGet? name :=
  dynGet?_dynErase (r := { r with layout := some { l with table } }) orderly.store (names.name id) name

theorem slotOf?_settle (here : r.layout = some l) (installed : l.table.install id slot = .ok table) (x : PropId) :
    (r.settle names l table id).slotOf? x = if x = id then some slot else r.slotOf? x := by
  rw [← slotOf?_install here installed x, settle_eq]
  rfl

theorem Tends.settle (orderly : r.Orderly) (tagged : r.tag.isSome) (here : r.layout = some l)
    (installed : l.table.install id slot = .ok table) (yes : free) :
    r.Tends names free (r.settle names l table id) where
  proto := by rw [settle_eq]
  hasStore := dynErase_isSome (r := { r with layout := some { l with table } }) _
  orderly _ := by
    refine ⟨dynErase_placed (r := { r with layout := some { l with table } }) orderly.store _, fun untagged => ?_⟩
    rw [settle_eq] at untagged
    rw [untagged] at tagged
    cases tagged
  tag := by
    rw [settle_eq]
    exact fun tagged => tagged
  migrating _ := by rw [settle_eq]
  slots x slot := by
    rw [slotOf?_settle here installed]
    split
    · rfl
    · exact slot
  keys _ closed := absurd yes closed
  only _ _ name key := by
    rw [dynGet?_settle orderly] at key
    split at key
    · cases key
    · exact key
  moved name key := by
    by_cases same : name = names.name id
    · exact .inr ⟨id, same.symm, by rw [slotOf?_settle here installed, if_pos rfl]; rfl⟩
    · exact .inl (by rwa [dynGet?_settle orderly, if_neg same])

/-- Moved, the property is in one place. -/
theorem doubled_of_settle (orderly : r.Orderly) (here : r.layout = some l)
    (installed : l.table.install id slot = .ok table) {x : PropId}
    (doubled : (r.settle names l table id).Doubled names x) : r.Doubled names x := by
  obtain ⟨slot, key⟩ := doubled
  rw [dynGet?_settle orderly] at key
  rw [slotOf?_settle here installed] at slot
  split at key
  · cases key
  next other =>
    rw [if_neg fun same => other (congrArg names.name same)] at slot
    exact ⟨slot, key⟩

end

def start (ref : Ref) (t : TypeId) (r : Record) : Record :=
  { r with tag := some t, layout := some ⟨.migrated ref, Layout.empty⟩, migrating := true }

def finish (r : Record) : Record :=
  { r with migrating := false, layout := r.layout.map fun l => { l with table := l.table.publish } }

theorem slotOf?_finish (id : PropId) : r.finish.slotOf? id = r.slotOf? id := slotOf?_publish id

theorem Tends.start (orderly : r.Orderly) (untagged : r.tag = none) (ref : Ref) (t : TypeId) :
    r.Tends names free (r.start ref t) where
  proto := rfl
  hasStore := rfl
  orderly _ := ⟨orderly.store, fun none => by cases none⟩
  tag := by simp [untagged]
  migrating := by simp [untagged]
  slots id := by simp [slotOf?_none_of_layout (orderly.untagged untagged).1]
  keys := by simp [untagged]
  only := by simp [untagged]
  moved _ := .inl

/-- Nothing is known of a record without a type but where its properties go. -/
theorem Tends.finish (untagged : r.tag = none) (tends : r.Tends names free r') : r.Tends names free r'.finish where
  proto := tends.proto
  hasStore := tends.hasStore
  orderly tidy := by
    refine ⟨(tends.orderly tidy).store, fun untagged' => ⟨?_, rfl⟩⟩
    simp [Record.finish, ((tends.orderly tidy).untagged untagged').1]
  tag := by simp [untagged]
  migrating := by simp [untagged]
  slots id here := by
    rw [slotOf?_finish]
    exact tends.slots id here
  keys := by simp [untagged]
  only := by simp [untagged]
  moved name here := by
    simp only [slotOf?_finish]
    exact tends.moved name here

/-- A finished record may be given keys. -/
theorem Tends.put (orderly : r.Orderly) (finished : r.migrating = false) (name : String) (w : Word) :
    r.Tends names free (r.dynPut name w) where
  proto := rfl
  hasStore := dynPut_isSome name w
  orderly _ := ⟨dynPut_placed orderly.store name w, orderly.untagged⟩
  tag := id
  migrating _ := rfl
  slots _ := id
  keys _ _ x key := by
    rw [dynGet?_dynPut orderly.store]
    split
    · rfl
    · exact key
  only _ moving := by
    rw [finished] at moving
    cases moving
  moved x key := by
    rw [dynGet?_dynPut orderly.store]
    split
    · exact .inl rfl
    · exact .inl key

end Record

/-- After an update a record is the updated one or as it was. -/
theorem Heap.get?_update_cases {h : Heap} {f : Record → Record} {x : Ref} (found : (h.update ref f).get? x = some r') :
    (∃ r, h.get? ref = some r ∧ x = ref ∧ r' = f r) ∨ x ≠ ref ∧ h.get? x = some r' := by
  by_cases same : x = ref
  · subst same
    cases present : h.get? x with
    | none =>
      rw [update_of_none present, present] at found
      cases found
    | some r =>
      rw [get?_update_same present] at found
      exact .inl ⟨r, rfl, rfl, (Option.some.inj found).symm⟩
  · rw [get?_update_ne same] at found
    exact .inr ⟨same, found⟩

theorem Heap.get?_add_cases {h : Heap} {new : Record} {x : Ref} (found : (h.add new).get? x = some r') :
    r' = new ∨ h.get? x = some r' := by
  rw [get?_add] at found
  split at found
  · exact .inl (Option.some.inj found).symm
  · exact .inr found

namespace Machine

variable {m m' m'' : Machine} {free : Option Ref}

structure Orderly (m : Machine) : Prop where
  records : ∀ {ref : Ref} {r : Record}, m.heap.get? ref = some r → r.Orderly
  chains : ∀ {ref : Ref} {r : Record}, m.heap.get? ref = some r → ∃ l, m.heap.Chain (some ref) l

theorem Valid.orderly (valid : m.Valid) : m.Orderly where
  records found := ⟨(valid.records found).store, (valid.records found).untagged⟩
  chains found := valid.chains found

structure Tends (free : Option Ref) (m m' : Machine) : Prop where
  types : m'.types = m.types
  records : ∀ {ref : Ref} {r : Record}, m.heap.get? ref = some r →
    ∃ r', m'.heap.get? ref = some r' ∧ r.Tends m.types.names (free = some ref) r'
  fresh : ∀ {ref : Ref} {r' : Record}, m.heap.get? ref = none → m'.heap.get? ref = some r' →
    r'.Orderly ∧ r'.proto = none

/-- No record is left in the middle of a migration that was not in one before. -/
def Quiet (m m' : Machine) : Prop :=
  ∀ ref r', m'.heap.get? ref = some r' → r'.migrating = true → ∃ r, m.heap.get? ref = some r ∧ r.migrating = true

/-- No property is in two places that was not so before. -/
def Clean (m m' : Machine) : Prop :=
  ∀ ref r' id, m'.heap.get? ref = some r' → r'.Doubled m.types.names id →
    ∃ r, m.heap.get? ref = some r ∧ r.Doubled m.types.names id

def Displaced (m : Machine) : Prop :=
  ∃ ref r id, m.heap.get? ref = some r ∧ r.tag.isSome ∧ r.migrating = false ∧ r.Doubled m.types.names id

def Moving (m : Machine) (free : Option Ref) : Prop :=
  ∀ ref, free = some ref → ∃ r, m.heap.get? ref = some r ∧ r.tag.isSome ∧ r.migrating = true

def Typed (m : Machine) (ref : Ref) : Prop := ∃ r, m.heap.get? ref = some r ∧ r.tag.isSome

def Awaits (m : Machine) (ref : Ref) (name : String) : Prop :=
  ∃ r, m.heap.get? ref = some r ∧ r.tag.isSome ∧ r.migrating = true ∧ r.dynGet? name = none

theorem Quiet.trans (first : m.Quiet m') (second : m'.Quiet m'') : m.Quiet m'' := by
  intro ref r'' found moving
  obtain ⟨r', found', moving'⟩ := second ref r'' found moving
  exact first ref r' found' moving'

theorem Quiet.of_eq (heap : m'.heap = m.heap) : m.Quiet m' := by
  intro ref r' found moving
  exact ⟨r', heap ▸ found, moving⟩

theorem Clean.of_eq (heap : m'.heap = m.heap) : m.Clean m' := by
  intro ref r' id found doubled
  exact ⟨r', heap ▸ found, doubled⟩

theorem Clean.trans (first : m.Clean m') (second : m'.Clean m'') (types : m'.types = m.types) : m.Clean m'' := by
  intro ref r'' id found doubled
  obtain ⟨r', found', doubled'⟩ := second ref r'' id found (types ▸ doubled)
  exact first ref r' id found' (types ▸ doubled')

theorem Quiet.update {f : Record → Record}
    (here : ∀ r, m.heap.get? ref = some r → (f r).migrating = true → r.migrating = true) :
    m.Quiet { m with heap := m.heap.update ref f } := by
  intro x r' found moving
  obtain ⟨r, present, rfl, rfl⟩ | ⟨_, present⟩ := Heap.get?_update_cases found
  · exact ⟨r, present, here r present moving⟩
  · exact ⟨r', present, moving⟩

theorem Clean.update {f : Record → Record}
    (here : ∀ r, m.heap.get? ref = some r → ∀ id, (f r).Doubled m.types.names id → r.Doubled m.types.names id) :
    m.Clean { m with heap := m.heap.update ref f } := by
  intro x r' id found doubled
  obtain ⟨r, present, rfl, rfl⟩ | ⟨_, present⟩ := Heap.get?_update_cases found
  · exact ⟨r, present, here r present id doubled⟩
  · exact ⟨r', present, doubled⟩

theorem Quiet.add (idle : r.migrating = false) : m.Quiet { m with heap := m.heap.add r } := by
  intro x r' found moving
  rcases Heap.get?_add_cases found with rfl | present
  · rw [idle] at moving
    cases moving
  · exact ⟨r', present, moving⟩

theorem Clean.add (empty : r.dyn = none) : m.Clean { m with heap := m.heap.add r } := by
  intro x r' id found doubled
  rcases Heap.get?_add_cases found with rfl | present
  · have none : r'.dynGet? (m.types.names.name id) = .none := by simp [Record.dynGet?, empty]
    have key := doubled.2
    rw [none] at key
    cases key
  · exact ⟨r', present, doubled⟩

theorem moving_none : m.Moving none := fun _ none => by cases none

theorem Awaits.moving {name : String} (awaits : m.Awaits ref name) : m.Moving (some ref) := by
  intro _ same
  cases same
  obtain ⟨r, found, tagged, underway, _⟩ := awaits
  exact ⟨r, found, tagged, underway⟩

theorem Moving.typed (moving : m.Moving (some ref)) : m.Typed ref := by
  obtain ⟨r, found, tagged, _⟩ := moving ref rfl
  exact ⟨r, found, tagged⟩

namespace Tends

theorem of_eq (heap : m'.heap = m.heap) (types : m'.types = m.types) : m.Tends free m' where
  types := types
  records {_ r} found := ⟨r, heap ▸ found, .refl r⟩
  fresh missing found := by
    rw [heap, missing] at found
    cases found

theorem trans (first : m.Tends free m') (second : m'.Tends free m'') : m.Tends free m'' where
  types := second.types.trans first.types
  records found := by
    obtain ⟨r', found', tends⟩ := first.records found
    obtain ⟨r'', found'', tends'⟩ := second.records found'
    exact ⟨r'', found'', tends.trans (first.types ▸ tends')⟩
  fresh {ref r''} missing found := by
    cases found' : m'.heap.get? ref with
    | none => exact second.fresh found' found
    | some r' =>
      obtain ⟨orderly, unlinked⟩ := first.fresh missing found'
      obtain ⟨r₂, found₂, tends⟩ := second.records found'
      cases found.symm.trans found₂
      exact ⟨tends.orderly orderly, tends.proto.trans unlinked⟩

theorem weaken (tends : m.Tends none m') : m.Tends free m' :=
  { tends with
    records := fun found => by
      obtain ⟨r', found', here⟩ := tends.records found
      exact ⟨r', found', here.weaken fun none => by cases none⟩ }

/-- Chains end as before: no link has changed, and new records have none. -/
theorem orderly (tends : m.Tends free m') (orderly : m.Orderly) : m'.Orderly := by
  constructor
  · intro ref r' found'
    cases found : m.heap.get? ref with
    | none => exact (tends.fresh found found').1
    | some r =>
      obtain ⟨r₂, found₂, here⟩ := tends.records found
      cases found'.symm.trans found₂
      exact here.orderly (orderly.records found)
  · intro ref r' found'
    cases found : m.heap.get? ref with
    | none =>
      refine ⟨[ref], .cons found' ?_⟩
      rw [(tends.fresh found found').2]
      exact .nil
    | some r =>
      obtain ⟨l, chain⟩ := orderly.chains found
      refine ⟨l, chain.transfer fun x _ rx present => ?_⟩
      obtain ⟨rx', present', here⟩ := tends.records present
      exact ⟨rx', present', here.proto⟩

theorem moving (tends : m.Tends free m') (moving : m.Moving free) : m'.Moving free := by
  intro ref same
  obtain ⟨r, found, tagged, underway⟩ := moving ref same
  obtain ⟨r', found', here⟩ := tends.records found
  exact ⟨r', found', here.tag tagged, (here.migrating tagged).trans underway⟩

theorem typed (tends : m.Tends free m') (typed : m.Typed ref) : m'.Typed ref := by
  obtain ⟨r, found, tagged⟩ := typed
  obtain ⟨r', found', here⟩ := tends.records found
  exact ⟨r', found', here.tag tagged⟩

theorem awaits {name : String} (tends : m.Tends free m') (awaits : m.Awaits ref name) : m'.Awaits ref name := by
  obtain ⟨r, found, tagged, underway, absent⟩ := awaits
  obtain ⟨r', found', here⟩ := tends.records found
  refine ⟨r', found', here.tag tagged, (here.migrating tagged).trans underway, ?_⟩
  by_contra present
  have present := here.only tagged underway name (Option.isSome_iff_ne_none.2 present)
  rw [absent] at present
  cases present

/-- A record that is finished keeps its keys and slots. -/
theorem displaced (tends : m.Tends free m') (moving : m.Moving free) (displaced : m.Displaced) : m'.Displaced := by
  obtain ⟨ref, r, id, found, tagged, finished, slot, key⟩ := displaced
  obtain ⟨r', found', here⟩ := tends.records found
  have closed : free ≠ some ref := by
    intro same
    obtain ⟨r₂, found₂, _, underway⟩ := moving ref same
    cases found.symm.trans found₂
    rw [finished] at underway
    cases underway
  refine ⟨ref, r', id, found', here.tag tagged, (here.migrating tagged).trans finished, here.slots id slot, ?_⟩
  rw [tends.types]
  exact here.keys tagged closed _ key

theorem update {f : Record → Record}
    (here : ∀ r, m.heap.get? ref = some r → r.Tends m.types.names (free = some ref) (f r)) :
    m.Tends free { m with heap := m.heap.update ref f } where
  types := rfl
  records {x r} found := by
    by_cases same : x = ref
    · subst same
      exact ⟨f r, Heap.get?_update_same found f, here r found⟩
    · exact ⟨r, (Heap.get?_update_ne same f).trans found, .refl r⟩
  fresh {x r'} missing found := by
    obtain ⟨r, present, rfl, rfl⟩ | ⟨_, present⟩ := Heap.get?_update_cases found
    · rw [missing] at present
      cases present
    · rw [missing] at present
      cases present

theorem add (orderly : r.Orderly) (unlinked : r.proto = none) : m.Tends free { m with heap := m.heap.add r } where
  types := rfl
  records {_ r} found := ⟨r, Heap.get?_add_old found _, .refl r⟩
  fresh {x r'} missing found := by
    rcases Heap.get?_add_cases found with rfl | present
    · exact ⟨orderly, unlinked⟩
    · rw [missing] at present
      cases present

/-- From a record without a type on, nothing is known of its keys that depends on whether they are being moved. -/
theorem close (tends : m.Tends (some ref) m') (found : m.heap.get? ref = some r) (untagged : r.tag = none) :
    m.Tends none m' :=
  { tends with
    records := by
      intro x rx present
      obtain ⟨rx', present', here⟩ := tends.records present
      refine ⟨rx', present', ?_⟩
      by_cases same : x = ref
      · subst same
        cases found.symm.trans present
        exact here.close untagged
      · apply here.weaken
        intro moved
        exact absurd (Option.some.inj moved).symm same }

theorem finish (tends : m.Tends free m') (found : m.heap.get? ref = some r) (untagged : r.tag = none) :
    m.Tends free { m' with heap := m'.heap.update ref (·.finish) } where
  types := tends.types
  records {x rx} present := by
    obtain ⟨rx', present', here⟩ := tends.records present
    by_cases same : x = ref
    · subst same
      cases found.symm.trans present
      exact ⟨rx'.finish, Heap.get?_update_same present' _, here.finish untagged⟩
    · exact ⟨rx', (Heap.get?_update_ne same _).trans present', here⟩
  fresh {x rx'} missing present := by
    obtain ⟨_, _, rfl, _⟩ | ⟨_, present'⟩ := Heap.get?_update_cases present
    · rw [missing] at found
      cases found
    · exact tends.fresh missing present'

end Tends

theorem Tends.start (free : Option Ref) (orderly : m.Orderly) (found : m.heap.get? ref = some r)
    (untagged : r.tag = none) (t : TypeId) : m.Tends free { m with heap := m.heap.update ref (·.start ref t) } := by
  apply Tends.update
  intro r' found'
  cases found.symm.trans found'
  exact .start (orderly.records found) untagged ref t

theorem moving_start (found : m.heap.get? ref = some r) (t : TypeId) :
    Moving { m with heap := m.heap.update ref (·.start ref t) } (some ref) := by
  intro _ same
  cases same
  exact ⟨_, Heap.get?_update_same found _, rfl, rfl⟩

theorem Clean.start (t : TypeId) : m.Clean { m with heap := m.heap.update ref (·.start ref t) } := by
  apply Clean.update
  intro r _ id doubled
  cases doubled.1

theorem Clean.finish : m.Clean { m with heap := m.heap.update ref (·.finish) } := by
  apply Clean.update
  rintro r _ id ⟨slot, key⟩
  rw [Record.slotOf?_finish] at slot
  exact ⟨slot, key⟩

/-- The record that is migrated is the only one that was not in a migration before, and it is finished. -/
theorem Quiet.finish {t : TypeId} (between : Quiet { m with heap := m.heap.update ref (·.start ref t) } m') :
    m.Quiet { m' with heap := m'.heap.update ref (·.finish) } := by
  intro x r' found moving
  obtain ⟨_, _, rfl, rfl⟩ | ⟨other, found'⟩ := Heap.get?_update_cases found
  · cases moving
  · obtain ⟨r₁, found₁, moving₁⟩ := between x r' found' moving
    obtain ⟨_, _, same, _⟩ | ⟨_, present⟩ := Heap.get?_update_cases found₁
    · exact absurd same other
    · exact ⟨r₁, present, moving₁⟩

theorem Displaced.finish (moving : m.Moving (some ref)) (displaced : m.Displaced) :
    Displaced { m with heap := m.heap.update ref (·.finish) } := by
  obtain ⟨x, rx, id, found, tagged, finished, doubled⟩ := displaced
  have other : x ≠ ref := by
    rintro rfl
    obtain ⟨r, found', _, underway⟩ := moving x rfl
    cases found.symm.trans found'
    rw [finished] at underway
    cases underway
  exact ⟨x, rx, id, (Heap.get?_update_ne other _).trans found, tagged, finished, doubled⟩

end Machine

end Gradual
