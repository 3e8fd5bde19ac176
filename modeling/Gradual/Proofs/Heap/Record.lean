import Gradual.Heap.Record
import Gradual.Proofs.Property.Store

/-!
How the parts of a record read after an update: the store follows the laws of a map, a slot that is set
reads as what was put there, and the other parts stay.
-/
namespace Gradual

/-- The entries are where the hash of the store looks for them. -/
def PropertyStore.Placed (s : PropertyStore) : Prop := s.table.Placed s.hash

namespace Record

variable {r : Record}

theorem dyn_isSome {name : String} {w : Word} (present : r.dynGet? name = some w) : r.dyn.isSome := by
  cases store : r.dyn with
  | none => simp [dynGet?, store] at present
  | some d => rfl

theorem dynGet?_withStore (hash : String → UInt64) (x : String) : (r.withStore hash).dynGet? x = r.dynGet? x := by
  unfold withStore dynGet?
  cases r.dyn with
  | none => exact HashStore.empty_get? 0 x
  | some d => rfl

theorem withStore_placed (hash : String → UInt64) (placed : ∀ d, r.dyn = some d → d.Placed) :
    ∀ d, (r.withStore hash).dyn = some d → d.Placed := by
  intro d made
  rw [← Option.some.inj made]
  cases store : r.dyn with
  | none => exact HashStore.empty_placed hash 0
  | some e => exact placed e store

/-- A write is read back if there is a store to write to. -/
theorem dynGet?_dynPut (placed : ∀ d, r.dyn = some d → d.Placed) (name : String) (w : Word) (x : String) :
    (r.dynPut name w).dynGet? x = if x = name ∧ r.dyn.isSome then some w else r.dynGet? x := by
  unfold dynPut dynGet?
  cases store : r.dyn with
  | none => simp
  | some d => simpa [PropertyStore.get?, PropertyStore.put] using HashStore.get?_put (placed d store) name w x

theorem dynGet?_dynPut_withStore (placed : ∀ d, r.dyn = some d → d.Placed) (hash : String → UInt64) (name : String)
    (w : Word) (x : String) :
    ((r.withStore hash).dynPut name w).dynGet? x = if x = name then some w else r.dynGet? x := by
  rw [dynGet?_dynPut (withStore_placed hash placed), dynGet?_withStore]
  simp [withStore]

theorem dynPut_placed (placed : ∀ d, r.dyn = some d → d.Placed) (name : String) (w : Word) :
    ∀ d, (r.dynPut name w).dyn = some d → d.Placed := by
  intro d made
  obtain ⟨e, store, rfl⟩ := Option.map_eq_some_iff.1 made
  exact HashStore.put_placed (placed e store) name w

theorem dynPut_isSome (name : String) (w : Word) : (r.dynPut name w).dyn.isSome = r.dyn.isSome := Option.isSome_map

theorem dynErase_isSome (name : String) : (r.dynErase name).1.dyn.isSome = r.dyn.isSome := by
  unfold dynErase
  cases store : r.dyn with
  | none => simp [store]
  | some d => rfl

theorem dynErase_eq : (r.dynErase name).1 = { r with dyn := (r.dynErase name).1.dyn } := by
  unfold dynErase
  cases r with
  | mk body layout proto dyn tag migrating cell => cases dyn <;> rfl

theorem dynGet?_dynErase (placed : ∀ d, r.dyn = some d → d.Placed) (name x : String) :
    (r.dynErase name).1.dynGet? x = if x = name then none else r.dynGet? x := by
  unfold dynErase dynGet?
  cases store : r.dyn with
  | none => simp [store]
  | some d => exact HashStore.get?_erase (placed d store) name x

theorem dynErase_placed (placed : ∀ d, r.dyn = some d → d.Placed) (name : String) :
    ∀ d, (r.dynErase name).1.dyn = some d → d.Placed := by
  unfold dynErase
  cases store : r.dyn with
  | none => exact fun d same => placed d same
  | some d =>
    intro e made
    rw [← Option.some.inj made]
    exact HashStore.erase_placed (placed d store) name

theorem setSlot_slots (i : Nat) (s : Slot) : (r.setSlot i s).slots = r.slots.setIfInBounds i s := by
  unfold setSlot slots
  cases body : r.body <;> simp [body]

theorem setSlot_body (object : r.body = .object r.slots) (i : Nat) (s : Slot) :
    (r.setSlot i s).body = .object (r.setSlot i s).slots := by
  rw [setSlot_slots]
  unfold setSlot
  rw [object]

/-- Setting a slot changes nothing but the slots. -/
theorem setSlot_eq (i : Nat) (s : Slot) : r.setSlot i s = { r with body := (r.setSlot i s).body } := by
  unfold setSlot
  cases r with
  | mk body layout proto dyn tag migrating cell => cases body <;> rfl

theorem setSlot_kind (i : Nat) (s : Slot) : (r.setSlot i s).kind = r.kind := by
  unfold setSlot kind
  cases body : r.body <;> simp [body]

theorem setSlot_elems? (i : Nat) (s : Slot) : (r.setSlot i s).elems? = r.elems? := by
  unfold setSlot elems?
  cases body : r.body <;> simp [body]

theorem elems?_of_kind (kind : r.kind = .array) : ∃ d, r.elems? = some d := by
  unfold Record.kind at kind
  unfold elems?
  cases body : r.body <;> simp [body] at kind ⊢

theorem elems?_eq_some {d : Deque} : r.elems? = some d ↔ r.body = .array d := by
  unfold elems?
  cases r.body <;> simp

theorem slotOf?_none_of_layout (none : r.layout = none) (id : PropId) : r.slotOf? id = .none := by
  rw [slotOf?, none]
  rfl

end Record

/-- A property that is installed has the slot it was given, and the others keep theirs. -/
theorem Layout.slot?_append {l : Layout Nat} {id : PropId} (free : l.slot? id = none) (n : Nat) (x : PropId) :
    Layout.slot? ⟨l.entries ++ [(id, n)], l.published⟩ x = if x = id then some n else l.slot? x := by
  unfold slot? at free ⊢
  rw [List.lookup_append]
  by_cases same : x = id
  · subst same
    simp [free]
  · have other : (x == id) = false := by simpa using same
    simp [same, List.lookup_cons, other]

theorem Layout.slot?_eq_none {l : Layout Nat} {id : PropId} : l.slot? id = none ↔ id ∉ l.entries.map (·.1) := by
  simp only [slot?, List.lookup_eq_none_iff, List.mem_map, bne_iff_ne, ne_eq]
  exact ⟨fun none ⟨e, member, same⟩ => none e member same.symm, fun none e member same => none ⟨e, member, same.symm⟩⟩

/-- Distinct properties are placed one after the other. -/
theorem Layout.place_eq {l : Layout Nat} {ids : List PropId} (unpublished : l.published = false) (n : Nat)
    (distinct : (l.entries.map (·.1) ++ ids).Nodup) :
    l.place n ids = .ok { l with entries := l.entries ++ ids.zipIdx n } := by
  induction ids generalizing l n with
  | nil => simp [place]
  | cons id rest ih =>
    have free : l.slot? id = none := by
      rw [slot?_eq_none]
      intro member
      exact (List.nodup_append.1 distinct).2.2 id member id List.mem_cons_self rfl
    let grown : Layout Nat := { l with entries := l.entries ++ [(id, n)] }
    have installed : l.install id n = .ok grown := by simp [install, unpublished, free, grown]
    have distinct' : (grown.entries.map (·.1) ++ rest).Nodup := by simpa [grown] using distinct
    calc l.place n (id :: rest)
        = grown.place (n + 1) rest := by
          rw [place, installed]
          rfl
      _ = .ok { l with entries := l.entries ++ (id :: rest).zipIdx n } := by
          rw [ih (l := grown) unpublished (n + 1) distinct']
          simp [grown, List.zipIdx_cons]

theorem Layout.ofProperties_eq {ids : List PropId} (distinct : ids.Nodup) :
    ofProperties ids = .ok ⟨ids.zipIdx, true⟩ := by
  rw [ofProperties, place_eq rfl 0 (by simpa [empty] using distinct)]
  rfl

end Gradual
