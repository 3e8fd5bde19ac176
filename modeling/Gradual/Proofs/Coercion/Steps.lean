import Gradual.Proofs.Coercion.Evolution
import Gradual.Proofs.Heap.Record

/-!
The steps of a coercion: a record takes a tag or a layout, a value is written back where it was read,
a property moves from the store into a slot, a slot is shared with the prototype, and an untyped closure
is wrapped. Each step keeps the machine valid and evolves it.
-/
namespace Gradual.Machine.Evolves

variable {base : Nat} {free : Option Ref} {m : Machine} {ref : Ref} {r : Record} {f : Record → Record}

/-- Tag, layout and the mark of a migration change, and every property stays where it is. -/
theorem relabel {tag' : Option TypeId} {layout' : Option FixedLayout} {mark : Bool} (valid : m.Valid)
    (found : m.heap.get? ref = some r) (made : f r = { r with tag := tag', layout := layout', migrating := mark })
    (record : (f r).Valid m.types m.heap) (tag : ∀ t, r.tag = some t → tag' = some t)
    (untagged : r.kind ≠ .object → r.kind ≠ .array → tag' = r.tag)
    (entries : ∀ id, (f r).slotOf? id = r.slotOf? id) (layout : layout' = none → r.layout = none)
    (frozen : r.tag.isSome → free ≠ some ref → layout' = r.layout ∧ mark = r.migrating)
    (finished : r.tag.isSome → r.migrating = false → mark = false) :
    Evolves base free m { m with heap := m.heap.update ref f } := by
  have slots : (f r).slots = r.slots := by rw [made]; rfl
  have store (name : String) : (f r).dynGet? name = r.dynGet? name := by rw [made]; rfl
  have valid' : Machine.Valid { m with heap := m.heap.update ref f } := by
    refine valid.update found record (by rw [made]; rfl) (by rw [made]) (fun tagged done => ?_)
      (fun i q j forward => .inl ⟨i, slots ▸ forward⟩) (fun {id i} slot => (entries id).trans slot)
      fun id i q j slot forward => valid.aligned found id i q j ((entries id).symm.trans slot) (slots ▸ forward)
    obtain ⟨t, known⟩ := Option.isSome_iff_exists.1 tagged
    refine ⟨?_, ?_, slots ▸ Nat.le_refl _⟩
    · rw [made, tag t known]
      rfl
    · rw [made]
      exact finished tagged done
  have own (id : PropId) : Machine.own? { m with heap := m.heap.update ref f } (f r) id = m.own? r id :=
    valid.own?_eq valid' rfl found (Heap.get?_update_same found f) (Heap.update_finished found fun _ _ => slots)
      (entries id) (fun i _ => by rw [slots]) fun _ => store _
  exact update valid found valid' (fun _ _ => slots) {
    proto := by rw [made]
    cell := by rw [made]
    body := by rw [made]; exact .same
    tag := by rw [made]; exact tag
    untagged := by rw [made]; exact untagged
    layout := by rw [made]; exact layout
    frozen := fun tagged notFree => by
      rw [made]
      obtain ⟨layout, mark⟩ := frozen tagged notFree
      exact ⟨layout, mark, fun _ => rfl⟩
    entry := fun {id i} slot => (entries id).trans slot
    forward := fun _ forward => slots ▸ forward
    resident := fun _ here => ⟨_, slots ▸ here⟩
    own := fun {id v} _ here => ⟨v, (own id).trans here, .same⟩
    grown := fun {id v} _ missing here => by
      rw [own id, missing] at here
      cases here
    hasStore := by rw [made]
    store := fun _ name => by
      rw [store]
      exact kept_rel_refl _ }

/-- An untyped object or array takes the type of a container. -/
theorem tagged {t : TypeId} (valid : m.Valid) (found : m.heap.get? ref = some r) (untagged : r.tag = none)
    (proper : m.types.Proper t) (suits : Record.Suits { r with tag := some t } (m.types.graph.node t))
    (kind : r.kind = .object ∨ r.kind = .array) :
    Evolves base free m { m with heap := m.heap.update ref fun r => { r with tag := some t } } := by
  have old := valid.records found
  obtain ⟨layout, migrating⟩ := old.untagged untagged
  have made : { r with tag := some t } = { r with tag := some t, layout := r.layout, migrating := r.migrating } := rfl
  refine relabel valid found made
    { slots := old.slots, store := old.store, entries := old.entries, elems := old.elems, cell := old.cell
      prototype := old.prototype, tagged := ?_, untagged := nofun, layout := fun l here => ?_, named := old.named }
    (fun t' known => ?_) (fun object array => ?_) (fun _ => rfl) id (fun _ _ => ⟨rfl, rfl⟩) fun _ => id
  · intro _ known
    cases known
    exact ⟨proper, suits⟩
  · exact absurd (layout.symm.trans here) nofun
  · rw [untagged] at known
    cases known
  · exact absurd kind (not_or.2 ⟨object, array⟩)

/-- An untyped object takes an object type and an empty layout. -/
theorem opened {t : TypeId} {props : List Property} (valid : m.Valid) (found : m.heap.get? ref = some r)
    (untagged : r.tag = none) (kind : r.kind = .object) (proper : m.types.Proper t)
    (shape : m.types.graph.node t = .object props) :
    Evolves base free m { m with heap := m.heap.update ref fun r =>
      { r with tag := some t, layout := some ⟨.migrated ref, Layout.empty⟩, migrating := true } } := by
  have old := valid.records found
  obtain ⟨layout, _⟩ := old.untagged untagged
  refine relabel valid found rfl
    { slots := old.slots, store := old.store, entries := old.entries, elems := old.elems, cell := old.cell
      prototype := old.prototype, tagged := ?_, untagged := nofun, layout := ?_, named := nofun }
    (fun t' known => ?_) (fun object _ => absurd kind object) (fun id => ?_) nofun (fun tagged => ?_) fun tagged => ?_
  · intro _ known
    cases known
    refine ⟨proper, ?_⟩
    rw [shape]
    exact ⟨kind, rfl⟩
  · intro _ here
    cases here
    exact ⟨.nil, rfl, Nat.zero_le _, rfl⟩
  · rw [untagged] at known
    cases known
  · rw [Record.slotOf?_none_of_layout layout]
    rfl
  · rw [untagged] at tagged
    cases tagged
  · rw [untagged] at tagged
    cases tagged

/-- The layout of a migrated object is complete and frozen. -/
theorem closed (valid : m.Valid) (found : m.heap.get? ref = some r)
    (made : f r = { r with migrating := false, layout := r.layout.map fun l => { l with table := l.table.publish } }) :
    Evolves base (some ref) m { m with heap := m.heap.update ref f } := by
  have old := valid.records found
  have entries (id : PropId) : (f r).slotOf? id = r.slotOf? id := by
    rw [made]
    unfold Record.slotOf?
    cases r.layout <;> rfl
  have made' : f r = { r with
      tag := r.tag, layout := r.layout.map fun l => { l with table := l.table.publish }, migrating := false } := made
  refine relabel valid found made' ?_ (fun _ known => known) (fun _ _ => rfl) entries
    Option.map_eq_none_iff.1 (fun _ notFree => absurd rfl notFree) fun _ _ => rfl
  rw [made]
  exact {
    slots := old.slots, store := old.store, entries := old.entries, elems := old.elems, cell := old.cell
    prototype := old.prototype
    tagged := fun t known => by
      obtain ⟨proper, suits⟩ := old.tagged t known
      refine ⟨proper, ?_⟩
      generalize m.types.graph.node t = n at suits
      cases n with
      | object => exact ⟨suits.1, by simpa using suits.2⟩
      | map | array | closure => exact ⟨suits.1, by simp [suits.2.1], rfl⟩
      | _ => exact suits
    untagged := fun untagged => ⟨by simp [(old.untagged untagged).1], rfl⟩
    layout := fun l here => by
      obtain ⟨l', layout, rfl⟩ := Option.map_eq_some_iff.1 here
      have laid := old.layout l' layout
      exact ⟨laid.ids, laid.numbered, laid.fits, rfl⟩
    named := fun {id i} slot => old.named ((entries id).symm.trans (made ▸ slot)) }

/-- A property in the store is written back. Behind a fixed slot the store is out of sight. -/
theorem stored {name : String} {w : Word} (valid : m.Valid) (found : m.heap.get? ref = some r)
    (genuine : m.heap.Genuine w)
    (kept : (r.layout = none ∨ ∃ id, m.types.names.name id = name ∧ r.slotOf? id = none) →
      ∃ v, r.dynGet? name = some v ∧ Kept base m.heap v w) :
    Evolves base free m { m with heap := m.heap.update ref (·.dynPut name w) } := by
  have old := valid.records found
  have get := r.dynGet?_dynPut old.store name w
  have valid' := valid.refill (f := (·.dynPut name w)) found (old.dynPut genuine name)
  have kept' {v : Word} (kept : Kept base m.heap v w) :
      Kept base (m.heap.update ref (·.dynPut name w)) v w :=
    kept.update found fun _ => ⟨rfl, rfl⟩
  -- all other properties are read the same
  have own {x : PropId} (other : r.slotOf? x = none → m.types.names.name x ≠ name) :
      Machine.own? { m with heap := m.heap.update ref (·.dynPut name w) }
        (r.dynPut name w) x = m.own? r x :=
    valid.own?_eq valid' rfl found (Heap.get?_update_same found _) (Heap.update_finished found fun _ _ => rfl) rfl
      (fun _ _ => rfl) fun free => by rw [get, if_neg fun same => other free same.1]
  refine update valid found valid' (fun _ _ => rfl) {
    proto := rfl, cell := rfl, body := .same, tag := fun _ known => known, untagged := fun _ _ => rfl
    layout := fun none => none, frozen := fun _ _ => ⟨rfl, rfl, fun _ => rfl⟩, entry := fun slot => slot
    forward := fun _ slot => slot
    resident := fun _ slot => ⟨_, slot⟩
    hasStore := r.dynPut_isSome name w
    own := fun {x v} _ here => ?_, grown := fun {x v} _ missing here => ?_, store := fun none x => ?_ }
  · by_cases same : r.slotOf? x = none ∧ m.types.names.name x = name
    · obtain ⟨v', present, kept⟩ := kept (.inr ⟨x, same.2, same.1⟩)
      rw [own?_of_store same.1, same.2, present] at here
      cases here
      refine ⟨w, ?_, kept' kept⟩
      rw [own?_of_store (r := r.dynPut _ w) same.1, get, if_pos ⟨same.2, Record.dyn_isSome present⟩]
    · exact ⟨v, (own fun free same' => same ⟨free, same'⟩).trans here, .same⟩
  · by_cases same : r.slotOf? x = none ∧ m.types.names.name x = name
    · obtain ⟨v', present, _⟩ := kept (.inr ⟨x, same.2, same.1⟩)
      rw [own?_of_store same.1, same.2, present] at missing
      cases missing
    · rw [own fun free same' => same ⟨free, same'⟩, missing] at here
      cases here
  · rw [get]
    split
    next same =>
      obtain ⟨v, present, kept⟩ := kept (.inl none)
      rw [same.1, present]
      exact .some (kept' kept)
    next => exact kept_rel_refl _

/-- An element of an array is written back. -/
theorem elementStored {d : Deque} {i : Nat} {w : Word} (valid : m.Valid) (found : m.heap.get? ref = some r)
    (elems : r.elems? = some d) (inside : i < d.size) (genuine : m.heap.Genuine w)
    (kept : Kept base m.heap (d.get i) w) (made : f r = { r with body := .array (d.store i w) }) :
    Evolves base free m { m with heap := m.heap.update ref f } := by
  have old := valid.records found
  obtain ⟨housed, members⟩ := old.elems d elems
  obtain ⟨housed', size, get⟩ := Deque.store_spec housed i w
  have body := Record.elems?_eq_some.1 elems
  have slots : (f r).slots = r.slots := by rw [made]; simp [Record.slots, body]
  have valid' : Machine.Valid { m with heap := m.heap.update ref f } := by
    refine valid.refill found (made ▸ old.setElems elems housed' fun k => ?_)
    rw [get]
    split
    · exact genuine
    · exact members k
  have own (x : PropId) : Machine.own? { m with heap := m.heap.update ref f } (f r) x = m.own? r x :=
    valid.own?_eq valid' rfl found (Heap.get?_update_same found _) (Heap.update_finished found fun _ _ => slots)
      (by rw [made]; rfl) (fun _ _ => by rw [slots]) fun _ => by rw [made]; rfl
  refine update valid found valid' (fun _ _ => slots) {
    proto := by rw [made], cell := by rw [made], tag := fun _ known => by rw [made]; exact known
    untagged := fun _ _ => by rw [made]
    layout := fun none => by rw [made] at none; exact none
    frozen := fun _ _ => by rw [slots, made]; exact ⟨rfl, rfl, fun _ => rfl⟩
    entry := fun slot => by rw [made]; exact slot
    forward := fun _ forward => slots ▸ forward
    resident := fun _ here => ⟨_, slots ▸ here⟩
    own := fun {x v} _ here => ⟨v, (own x).trans here, .same⟩
    grown := fun {x v} _ missing here => by
      rw [own x, missing] at here
      cases here
    hasStore := by rw [made]
    store := fun _ name => by rw [made]; exact kept_rel_refl _
    body := ?_ }
  rw [made, body]
  refine .array (by rw [size]; omega) fun k => ?_
  rw [get]
  split
  next same =>
    subst same
    exact kept.update found fun callable => by simp [Record.kind, body, RecordKind.isCallable] at callable
  next => exact .same

end Gradual.Machine.Evolves

namespace Gradual

/-- Only objects are given a layout. -/
theorem Record.Valid.migrating_object {s : TypeStore} {h : Heap} {r : Record} (valid : r.Valid s h)
    (migrating : r.migrating = true) : ∃ t l, r.tag = some t ∧ r.layout = some l ∧ r.body = .object r.slots := by
  cases tag : r.tag with
  | none =>
    have := (valid.untagged tag).2
    rw [migrating] at this
    cases this
  | some t =>
    obtain ⟨_, suits⟩ := valid.tagged t tag
    generalize s.graph.node t = n at suits
    cases n with
    | object =>
      obtain ⟨l, layout⟩ := Option.isSome_iff_exists.1 suits.2
      refine ⟨t, l, rfl, layout, ?_⟩
      have is_object := suits.1
      unfold Record.kind at is_object
      unfold Record.slots
      cases body : r.body <;> simp [body] at is_object ⊢
    | map | array | closure =>
      have := suits.2.2
      rw [migrating] at this
      cases this
    | _ => exact suits.elim

/-- What a step on the slots of a migrating object may leave. -/
structure Reslotted (m : Machine) (r r' : Record) : Prop where
  migrating : r.migrating = true
  eq : r' = { r with body := r'.body, layout := r'.layout, dyn := r'.dyn }
  body : r'.body = .object r'.slots
  size : r'.slots.size = r.slots.size
  slots : ∀ (i : Nat) (w : Word), r'.slots[i]? = some (.here w) → m.heap.Genuine w
  forwards : ∀ (i : Nat) (q : Ref) (j : Nat), r'.slots[i]? = some (.forward q j) →
    (∃ i' : Nat, r.slots[i']? = some (.forward q j)) ∨ m.heap.Target q j
  store : ∀ d, r'.dyn = some d → d.Placed
  entries : ∀ name w, r'.dynGet? name = some w → m.heap.Genuine w
  layout : ∃ l, r'.layout = some l ∧ r'.LaidOut l
  named : ∀ {id : PropId} {i : Nat}, r'.slotOf? id = some i → m.types.names.name id ≠ ""
  entry : ∀ {id : PropId} {i : Nat}, r.slotOf? id = some i → r'.slotOf? id = some i
  hasStore : r'.dyn.isSome = r.dyn.isSome
  aligned : m.heap.Aligned r'

namespace Reslotted

variable {base : Nat} {free : Option Ref} {m : Machine} {ref : Ref} {r : Record} {f : Record → Record}

theorem valid (reslotted : Reslotted m r (f r)) (valid : m.Valid) (found : m.heap.get? ref = some r) :
    Machine.Valid { m with heap := m.heap.update ref f } := by
  have old := valid.records found
  obtain ⟨t, l, tag, _, body⟩ := old.migrating_object reslotted.migrating
  have migrating := reslotted.migrating
  have tag' : (f r).tag = r.tag := by rw [reslotted.eq]
  have kind : (f r).kind = r.kind := by simp [Record.kind, reslotted.body, body]
  obtain ⟨l', layout', laid⟩ := reslotted.layout
  refine valid.update found {
    slots := reslotted.slots, store := reslotted.store, entries := reslotted.entries
    elems := fun d elems => by
      rw [Record.elems?_eq_some, reslotted.body] at elems
      cases elems
    cell := by rw [reslotted.eq]; exact old.cell
    prototype := by simp [Record.prototype?, reslotted.body]
    tagged := fun t' known => by
      obtain ⟨proper, suits⟩ := old.tagged t' (tag' ▸ known)
      refine ⟨proper, ?_⟩
      generalize m.types.graph.node t' = n at suits
      cases n with
      | object => exact ⟨kind.trans suits.1, by rw [layout']; rfl⟩
      | map | array | closure =>
        have := suits.2.2
        rw [migrating] at this
        cases this
      | _ => exact suits
    untagged := fun untagged => by
      rw [tag', tag] at untagged
      cases untagged
    layout := fun l here => by
      cases layout'.symm.trans here
      exact laid
    named := reslotted.named } kind (by rw [reslotted.eq])
    (fun _ done => by rw [migrating] at done; cases done)
    (fun i q j forward => (reslotted.forwards i q j forward).imp_right fun target => ⟨migrating, target⟩)
    reslotted.entry reslotted.aligned

/-- Each property is read as before, or is written back, or is newly shared with the prototype. -/
theorem evolves (reslotted : Reslotted m r (f r)) (valid : m.Valid) (found : m.heap.get? ref = some r)
    (forward : ∀ {id : PropId} {i : Nat} {q : Ref} {j : Nat}, r.slotOf? id = some i →
      r.slots[i]? = some (.forward q j) → (f r).slots[i]? = some (.forward q j))
    (resident : ∀ {id : PropId} {i : Nat} {w : Word}, r.slotOf? id = some i → r.slots[i]? = some (.here w) →
      ∃ w', (f r).slots[i]? = some (.here w'))
    (frozen : free ≠ some ref → (f r).layout = r.layout)
    (reads : ∀ {id : PropId}, m.types.names.name id ≠ "" →
      Machine.own? { m with heap := m.heap.update ref f } (f r) id = m.own? r id ∨
      (∃ v w, m.own? r id = some v ∧ Kept base m.heap v w ∧
        Machine.own? { m with heap := m.heap.update ref f } (f r) id = some w) ∨
      (m.own? r id = none ∧ free = some ref ∧ Machine.Shares { m with heap := m.heap.update ref f } (f r) id)) :
    Machine.Evolves base free m { m with heap := m.heap.update ref f } := by
  have old := valid.records found
  obtain ⟨t, l, tag, layout, body⟩ := old.migrating_object reslotted.migrating
  obtain ⟨l', layout', _⟩ := reslotted.layout
  have migrating := reslotted.migrating
  have tag' : (f r).tag = r.tag := by rw [reslotted.eq]
  have not_callable : ¬r.kind.isCallable := by simp [Record.kind, body, RecordKind.isCallable]
  refine .update valid found (reslotted.valid valid found) (fun _ done => ?_) {
    proto := by rw [reslotted.eq]
    cell := by rw [reslotted.eq]
    body := by
      rw [reslotted.body, body]
      exact .object reslotted.size
    tag := fun _ known => tag'.trans known
    untagged := fun _ _ => tag'
    layout := fun none => by cases layout'.symm.trans none
    frozen := fun _ notFree => ⟨frozen notFree, by rw [reslotted.eq], fun done => ?_⟩
    entry := reslotted.entry
    forward := forward
    resident := resident
    hasStore := reslotted.hasStore
    own := fun {x v} named here => ?_
    grown := fun {x v} named missing here => ?_
    store := fun none => by cases layout'.symm.trans none }
  · rw [migrating] at done
    cases done
  · rw [migrating] at done
    cases done
  · rcases reads named with same | ⟨v', w, before, kept, after⟩ | ⟨missing, _⟩
    · exact ⟨v, same.trans here, .same⟩
    · cases before.symm.trans here
      exact ⟨w, after, kept.update found fun callable => absurd callable not_callable⟩
    · rw [missing] at here
      cases here
  · rcases reads named with same | ⟨v', w, before, kept, after⟩ | ⟨_, free, shares⟩
    · rw [same, missing] at here
      cases here
    · rw [missing] at before
      cases before
    · exact ⟨.inr free, shares⟩

end Reslotted

namespace Machine.Evolves

variable {base : Nat} {free : Option Ref} {m : Machine} {ref : Ref} {r : Record} {f : Record → Record}

theorem getElem?_set {s : Array Slot} {i : Nat} (inside : i < s.size) (x : Slot) (k : Nat) :
    (s.setIfInBounds i x)[k]? = if k = i then some x else s[k]? := by
  rw [Array.getElem?_setIfInBounds]
  by_cases same : k = i
  · subst same; simp [inside]
  · simp [same, Ne.symm same]

/-- The value in a slot of a record that is still migrating is written back. Nothing forwards to it. -/
theorem slotStored {id : PropId} {i : Nat} {v w : Word} (valid : m.Valid) (found : m.heap.get? ref = some r)
    (migrating : r.migrating = true) (slot : r.slotOf? id = some i) (here : r.slots[i]? = some (.here v))
    (genuine : m.heap.Genuine w) (kept : Kept base m.heap v w) :
    Evolves base free m { m with heap := m.heap.update ref (·.setSlot i (.here w)) } := by
  have old := valid.records found
  obtain ⟨t, l, _, layout, body⟩ := old.migrating_object migrating
  have inside := (old.slot_lt slot).2
  have slots := r.setSlot_slots i (.here w)
  have at_slot := getElem?_set inside (.here w)
  have shape := r.setSlot_eq i (.here w)
  have entries : ∀ x, (r.setSlot i (.here w)).slotOf? x = r.slotOf? x := fun x => by rw [shape]; rfl
  have laid := old.layout l layout
  have reslotted : Reslotted m r (r.setSlot i (.here w)) := {
    migrating := migrating
    eq := by rw [shape]
    body := r.setSlot_body body i (.here w)
    size := by rw [slots, Array.size_setIfInBounds]
    slots := fun k x at_k => by
      rw [slots, at_slot] at at_k
      split at at_k
      · cases at_k
        exact genuine
      · exact old.slots k x at_k
    forwards := fun k q j at_k => by
      rw [slots, at_slot] at at_k
      split at at_k
      · cases at_k
      · exact .inl ⟨k, at_k⟩
    store := by rw [shape]; exact old.store
    entries := by rw [shape]; exact old.entries
    hasStore := by rw [shape]
    layout := by
      refine ⟨l, by rw [shape, layout], laid.ids, laid.numbered, ?_, by rw [shape]; exact laid.published⟩
      rw [slots, Array.size_setIfInBounds]
      exact laid.fits
    named := fun {x k} at_x => old.named ((entries x).symm.trans at_x)
    entry := fun {x k} at_x => (entries x).trans at_x
    aligned := fun x k q j at_x at_k => by
      rw [slots, at_slot] at at_k
      split at at_k
      · cases at_k
      · exact valid.aligned found x k q j ((entries x).symm.trans at_x) at_k }
  have valid' := reslotted.valid valid found (f := (·.setSlot i (.here w)))
  have found' := Heap.get?_update_same found (·.setSlot i (.here w))
  refine reslotted.evolves valid found (f := (·.setSlot i (.here w)))
    (fun {x k q j} _ forward => ?_) (fun {x k u} _ resident => ?_) (fun _ => by rw [shape]) fun {x} named => ?_
  · rw [slots, at_slot, if_neg ?_, forward]
    rintro rfl
    rw [here] at forward
    cases forward
  · rw [slots, at_slot]
    split
    · exact ⟨w, rfl⟩
    · exact ⟨u, resident⟩
  · by_cases same : x = id
    · subst same
      refine .inr (.inl ⟨v, w, ?_, kept, ?_⟩)
      · obtain ⟨s, u, at_i, resolves, own⟩ := valid.own?_of_slot found slot
        cases at_i.symm.trans here
        cases resolves
        exact own
      · obtain ⟨s, u, at_i, resolves, own⟩ := valid'.own?_of_slot found' ((entries x).trans slot)
        rw [slots, at_slot, if_pos rfl] at at_i
        cases at_i
        cases resolves
        exact own
    · refine .inl (valid.own?_eq valid' rfl found found' (Heap.update_finished found fun _ done => ?_) (entries x)
        (fun k at_x => ?_) fun _ => by rw [shape]; rfl)
      · rw [migrating] at done
        cases done
      · rw [slots, at_slot, if_neg]
        rintro rfl
        exact same (old.slot_inj at_x slot)

end Machine.Evolves

structure Extended (m : Machine) (r : Record) (id : PropId) (n : Nat) (s : Slot) (r' : Record) : Prop where
  migrating : r.migrating = true
  named : m.types.names.name id ≠ ""
  layout : ∃ l, r.layout = some l ∧ n = l.table.entries.length ∧ l.table.slot? id = none ∧
    r' = { r with
      body := (r.setSlot n s).body
      layout := some { l with table := ⟨l.table.entries ++ [(id, n)], l.table.published⟩ }
      dyn := r'.dyn }
  room : n < r.slots.size
  here : ∀ w, s = .here w → m.heap.Genuine w
  forward : ∀ q j, s = .forward q j → m.heap.Target q j ∧ ∃ rq, m.heap.get? q = some rq ∧ rq.slotOf? id = some j
  store : ∀ d, r'.dyn = some d → d.Placed
  others : ∀ name, name ≠ m.types.names.name id → r'.dynGet? name = r.dynGet? name
  gone : r'.dynGet? (m.types.names.name id) = none
  hasStore : r'.dyn.isSome = r.dyn.isSome

namespace Extended

variable {base : Nat} {m : Machine} {ref : Ref} {r r' : Record} {f : Record → Record} {id : PropId} {n : Nat} {s : Slot}

theorem slots (extended : Extended m r id n s r') : r'.slots = r.slots.setIfInBounds n s := by
  obtain ⟨l, _, _, _, eq⟩ := extended.layout
  rw [eq, ← Record.setSlot_slots]
  rfl

theorem slotOf? (extended : Extended m r id n s r') (x : PropId) :
    r'.slotOf? x = if x = id then some n else r.slotOf? x := by
  obtain ⟨l, layout, _, free, eq⟩ := extended.layout
  rw [eq, Record.slotOf?, Record.slotOf?, layout, Option.bind_some, Option.bind_some]
  exact Layout.slot?_append free n x

theorem free (extended : Extended m r id n s r') : r.slotOf? id = none := by
  obtain ⟨l, layout, _, free, _⟩ := extended.layout
  rw [Record.slotOf?, layout, Option.bind_some, free]

theorem entry (extended : Extended m r id n s r') {x : PropId} {k : Nat} (at_x : r.slotOf? x = some k) :
    r'.slotOf? x = some k := by
  rw [extended.slotOf?, if_neg, at_x]
  rintro rfl
  rw [extended.free] at at_x
  cases at_x

/-- The slots of the other properties come before the new one. -/
theorem old_slot (extended : Extended m r id n s r') (old : r.Valid m.types m.heap) {x : PropId} {k : Nat}
    (at_x : r.slotOf? x = some k) : k ≠ n := by
  obtain ⟨l, layout, count, _⟩ := extended.layout
  have := (old.slot_lt at_x).1
  simp only [Record.fixedSize, layout, Option.map_some, Option.getD_some, Layout.size] at this
  omega

theorem reslotted (extended : Extended m r id n s r') (old : r.Valid m.types m.heap) (aligned : m.heap.Aligned r) :
    Reslotted m r r' := by
  obtain ⟨l, layout, count, free, eq⟩ := extended.layout
  obtain ⟨_, _, _, _, body⟩ := old.migrating_object extended.migrating
  have slots := extended.slots
  have at_slot := Machine.Evolves.getElem?_set extended.room s
  have laid := old.layout l layout
  exact {
    migrating := extended.migrating
    eq := by rw [eq]
    body := by
      rw [slots, ← Record.setSlot_slots, eq]
      exact Record.setSlot_body body n s
    size := by rw [slots, Array.size_setIfInBounds]
    slots := fun k x at_k => by
      rw [slots, at_slot] at at_k
      split at at_k
      · exact extended.here x (Option.some.inj at_k)
      · exact old.slots k x at_k
    forwards := fun k q j at_k => by
      rw [slots, at_slot] at at_k
      split at at_k
      · exact .inr (extended.forward q j (Option.some.inj at_k)).1
      · exact .inl ⟨k, at_k⟩
    store := extended.store
    hasStore := extended.hasStore
    entries := fun name w present => by
      by_cases same : name = m.types.names.name id
      · rw [same, extended.gone] at present
        cases present
      · exact old.entries name w (extended.others name same ▸ present)
    layout := by
      refine ⟨_, by rw [eq], ?_, ?_, ?_, by rw [eq]; exact laid.published⟩
      · simp only [List.map_append, List.map_cons, List.map_nil, List.nodup_append]
        refine ⟨laid.ids, by simp, ?_⟩
        intro x old_id y new_id same
        rw [List.mem_singleton.1 new_id] at same
        subst same
        obtain ⟨e, member, rfl⟩ := List.mem_map.1 old_id
        have := List.lookup_eq_none_iff.1 free e member
        simp at this
      · simp only [List.map_append, laid.numbered, List.length_append, List.length_singleton, List.range_succ, count,
          List.map_cons, List.map_nil]
      · have := extended.room
        simp only [List.length_append, List.length_singleton, slots, Array.size_setIfInBounds]
        omega
    named := fun {x k} at_x => by
      rw [extended.slotOf?] at at_x
      split at at_x
      next same => exact same ▸ extended.named
      next => exact old.named at_x
    entry := fun {x k} at_x => extended.entry at_x
    aligned := fun x k q j at_x at_k => by
      rw [extended.slotOf?] at at_x
      rw [slots, at_slot] at at_k
      split at at_x
      next same =>
        cases at_x
        rw [if_pos rfl] at at_k
        exact same ▸ (extended.forward q j (Option.some.inj at_k)).2
      next =>
        rw [if_neg (extended.old_slot old at_x)] at at_k
        exact aligned x k q j at_x at_k }

/-- All properties but the new one are read as before. -/
theorem own?_other (extended : Extended m r id n s (f r)) (valid : m.Valid) (found : m.heap.get? ref = some r)
    {x : PropId} (named : m.types.names.name x ≠ "") (other : x ≠ id) :
    Machine.own? { m with heap := m.heap.update ref f } (f r) x = m.own? r x := by
  have old := valid.records found
  have reslotted := extended.reslotted old (valid.aligned found)
  refine valid.own?_eq (reslotted.valid valid found) rfl found (Heap.get?_update_same found f)
    (Heap.update_finished found fun _ done => ?_) ?_ (fun k at_x => ?_) fun _ => extended.others _ fun same => ?_
  · rw [extended.migrating] at done
    cases done
  · rw [extended.slotOf?, if_neg other]
  · rw [extended.slots, Machine.Evolves.getElem?_set extended.room, if_neg (extended.old_slot old at_x)]
  · exact other (NameTable.name_inj valid.names named same)

/-- The new property is read from its slot. -/
theorem own?_new (extended : Extended m r id n s (f r)) (valid : m.Valid) (found : m.heap.get? ref = some r)
    {w : Word} (resolves : Heap.Resolves (m.heap.update ref f) s w) :
    Machine.own? { m with heap := m.heap.update ref f } (f r) id = some w := by
  have valid' := (extended.reslotted (valid.records found) (valid.aligned found)).valid valid found
  have slot : (f r).slotOf? id = some n := by rw [extended.slotOf?, if_pos rfl]
  obtain ⟨s', w', at_n, resolves', own⟩ := valid'.own?_of_slot (Heap.get?_update_same found f) slot
  rw [extended.slots, Machine.Evolves.getElem?_set extended.room, if_pos rfl] at at_n
  cases at_n
  rw [own, resolves.unique resolves']

theorem evolves (extended : Extended m r id n s (f r)) (valid : m.Valid) (found : m.heap.get? ref = some r)
    (new : (∃ v w, m.own? r id = some v ∧ Kept base m.heap v w ∧
        Machine.own? { m with heap := m.heap.update ref f } (f r) id = some w) ∨
      (m.own? r id = none ∧ Machine.Shares { m with heap := m.heap.update ref f } (f r) id)) :
    Machine.Evolves base (some ref) m { m with heap := m.heap.update ref f } := by
  have old := valid.records found
  have kept {x : PropId} {i : Nat} (at_x : r.slotOf? x = some i) : (f r).slots[i]? = r.slots[i]? := by
    rw [extended.slots, Machine.Evolves.getElem?_set extended.room, if_neg (extended.old_slot old at_x)]
  refine (extended.reslotted old (valid.aligned found)).evolves valid found
    (fun at_x forward => (kept at_x).trans forward) (fun at_x resident => ⟨_, (kept at_x).trans resident⟩)
    (absurd rfl) fun {x} named => ?_
  · by_cases same : x = id
    · subst same
      exact .inr (new.imp_right fun ⟨missing, shares⟩ => ⟨missing, rfl, shares⟩)
    · exact .inl (extended.own?_other valid found named same)

end Extended

namespace Machine.Evolves

variable {base : Nat} {free : Option Ref} {m : Machine}

theorem wrapped {n : Nat} {old : Ref} {t : TypeId} {sig : Signature} (valid : m.Valid) (proper : m.types.Proper t)
    (shape : m.types.graph.node t = .closure sig) (imports : m.Imports n old t) (room : m.heap.size + 1 ≤ maxRef) :
    Evolves base free m { m with heap := m.heap.add (Record.wrapper n old t) } := by
  refine add valid imports (valid.add ?_ rfl (fun _ _ _ => nofun) room)
  exact {
    slots := nofun, store := nofun, entries := nofun, elems := nofun, untagged := nofun, layout := nofun, named := nofun
    cell := Heap.genuine_null
    prototype := nofun
    tagged := fun t' known => by
      cases known
      refine ⟨proper, ?_⟩
      rw [shape]
      exact ⟨.inl rfl, rfl, rfl⟩ }

end Machine.Evolves

end Gradual
