import Gradual.Proofs.Machine.Reachable

/-!
Which records see a write. A property that a record does not own is read from its prototype, and one
whose slot forwards is read from the record it forwards to, so several records can read one value. A
write to that value is seen by exactly those whose read ends at the record that is written to, and the
heap stays well-typed if and only if each of them declares a type of the new value.

Coercion does not see to that. It lets a record share a slot whose owner declares another type as long
as the value there now has both, and a write of the owner's type then breaks what the record promised.
-/
namespace Gradual

def Record.put (r : Record) (hash : String → UInt64) (names : NameTable) (id : PropId) (w : Word) : Record :=
  match r.slotOf? id with
  | some i => r.setSlot i (.here w)
  | none => (r.withStore hash).dynPut (names.name id) w

namespace Record

variable {s : TypeStore} {h : Heap} {r : Record} {hash : String → UInt64} {names : NameTable} {id y : PropId} {w : Word}

theorem Valid.put (old : r.Valid s h) (genuine : h.Genuine w) : r.Refilled h (r.put hash names id w) := by
  unfold Record.put
  split
  · exact old.setSlot genuine _
  · exact old.enter genuine (dynPut_placed (withStore_placed hash old.store) _ w)
      (dynGet?_dynPut_withStore old.store hash _ w)

theorem put_elems? : (r.put hash names id w).elems? = r.elems? := by
  unfold put
  split
  · exact r.setSlot_elems? _ _
  · rfl

/-- Other properties stay in their places. -/
theorem Valid.put_other (old : r.Valid s h) (different : y ≠ id) (hash : String → UInt64) (names : NameTable)
    (w : Word) :
    (∀ i, r.slotOf? y = some i → (r.put hash names id w).slots[i]? = r.slots[i]?) ∧
      ∀ name ≠ names.name id, (r.put hash names id w).dynGet? name = r.dynGet? name := by
  unfold Record.put
  split
  next i place =>
    refine ⟨fun k at_y => ?_, fun name _ => by rw [setSlot_eq]; rfl⟩
    have apart : i ≠ k := fun same => different (old.slot_inj at_y (same ▸ place))
    rw [setSlot_slots, Array.getElem?_setIfInBounds, if_neg apart]
  next =>
    refine ⟨fun _ _ => rfl, fun name other => ?_⟩
    rw [r.dynGet?_dynPut_withStore old.store, if_neg other]

end Record

namespace Machine

variable {m : Machine} {ref x : Ref} {r rx : Record} {id y : PropId} {v w : Word}

def write (m : Machine) (ref : Ref) (id : PropId) (w : Word) : Machine :=
  { m with heap := m.heap.update ref (·.put m.hash m.types.names id w) }

theorem write_types : (m.write ref id w).types = m.types := rfl

/-- A read of the property from the record ends at the owner. -/
inductive ReadsFrom (m : Machine) (id : PropId) (owner : Ref) : Ref → Prop where
  | self : ReadsFrom m id owner owner
  | forward {x q : Ref} {r : Record} {i j : Nat} (found : m.heap.get? x = some r) (slot : r.slotOf? id = some i)
      (forward : r.slots[i]? = some (.forward q j)) (rest : ReadsFrom m id owner q) : ReadsFrom m id owner x
  | inherit {x q : Ref} {r : Record} (found : m.heap.get? x = some r) (missing : m.own? r id = none)
      (link : r.proto = some q) (rest : ReadsFrom m id owner q) : ReadsFrom m id owner x

theorem Valid.write (valid : m.Valid) (found : m.heap.get? ref = some r) (genuine : m.heap.Genuine w) :
    (m.write ref id w).Valid :=
  valid.refill found ((valid.records found).put genuine)

theorem write_get?_ne (different : x ≠ ref) : (m.write ref id w).heap.get? x = m.heap.get? x :=
  Heap.get?_update_ne different _

theorem Valid.write_record (valid : m.Valid) (genuine : m.heap.Genuine w) (ref : Ref) (id : PropId)
    (found : m.heap.get? x = some rx) :
    ∃ rx', (m.write ref id w).heap.get? x = some rx' ∧ rx.Refilled m.heap rx' ∧ rx'.elems? = rx.elems? := by
  have old := valid.records found
  by_cases same : x = ref
  · subst same
    exact ⟨_, Heap.get?_update_same found _, old.put genuine, Record.put_elems?⟩
  · refine ⟨rx, (write_get?_ne same).trans found, ?_, rfl⟩
    exact old.restore old.store old.entries

/-- Only the property of the record that is written to changes its place. -/
theorem Valid.write_place (valid : m.Valid) (named : m.types.names.name y ≠ "") (found : m.heap.get? x = some rx)
    (elsewhere : y = id → x ≠ ref) {rx' : Record} (found' : (m.write ref id w).heap.get? x = some rx') :
    (∀ i, rx.slotOf? y = some i → rx'.slots[i]? = rx.slots[i]?) ∧
      rx'.dynGet? (m.types.names.name y) = rx.dynGet? (m.types.names.name y) := by
  by_cases same : x = ref
  · subst same
    cases (Heap.get?_update_same found _).symm.trans found'
    have different : y ≠ id := fun equal => elsewhere equal rfl
    obtain ⟨slots, store⟩ := (valid.records found).put_other different m.hash m.types.names w
    exact ⟨slots, store _ fun equal => different (NameTable.name_inj valid.names named equal)⟩
  · cases found.symm.trans ((write_get?_ne same).symm.trans found')
    exact ⟨fun _ _ => rfl, rfl⟩

/-- Reads that do not end at the record that is written to go the same way as before. -/
theorem Valid.write_resolves (valid : m.Valid) (genuine : m.heap.Genuine w) (named : m.types.names.name y ≠ "")
    {s : Slot} (resolves : m.heap.Resolves s v) (found : m.heap.get? x = some rx) {i : Nat}
    (place : rx.slotOf? y = some i) (slot : rx.slots[i]? = some s) (unseen : y = id → ¬m.ReadsFrom id ref x) :
    (m.write ref id w).heap.Resolves s v := by
  induction resolves generalizing x rx i with
  | here => exact .here
  | @forward q j rq s v at_q inner _ ih =>
    obtain ⟨_, same, entry⟩ := valid.aligned found y i q j place slot
    cases at_q.symm.trans same
    have unseen' : y = id → ¬m.ReadsFrom id ref q := by
      rintro rfl reads
      exact unseen rfl (.forward found place slot reads)
    obtain ⟨rq', at_q', _⟩ := valid.write_record genuine ref id at_q
    have slots := (valid.write_place named at_q (fun equal last => unseen' equal (last ▸ .self)) at_q').1
    exact .forward at_q' ((slots j entry).trans inner) (ih at_q entry inner unseen')

theorem Valid.own?_unseen (valid : m.Valid) (target : m.heap.get? ref = some r) (genuine : m.heap.Genuine w)
    (named : m.types.names.name y ≠ "") (found : m.heap.get? x = some rx) (unseen : y = id → ¬m.ReadsFrom id ref x)
    {rx' : Record} (found' : (m.write ref id w).heap.get? x = some rx') :
    (m.write ref id w).own? rx' y = m.own? rx y := by
  obtain ⟨_, same, refilled, _⟩ := valid.write_record genuine ref id found
  cases found'.symm.trans same
  have entry := refilled.slotOf? y
  obtain ⟨slots, store⟩ := valid.write_place named found (fun equal last => unseen equal (last ▸ .self)) found'
  cases place : rx.slotOf? y with
  | none =>
    rw [own?_of_store place, own?_of_store (entry.trans place)]
    exact store
  | some i =>
    obtain ⟨s, v, slot, resolves, own⟩ := valid.own?_of_slot found place
    obtain ⟨s', v', slot', resolves', own'⟩ := (valid.write target genuine).own?_of_slot found' (entry.trans place)
    cases slot.symm.trans ((slots i place).symm.trans slot')
    rw [own, own', (valid.write_resolves genuine named resolves found place slot unseen).unique resolves']

/-- A property reads as before where the read does not end at the record that is written to. -/
theorem Valid.lookup?_unseen (valid : m.Valid) (target : m.heap.get? ref = some r) (genuine : m.heap.Genuine w)
    (named : m.types.names.name y ≠ "") (found : m.heap.get? x = some rx)
    (unseen : y = id → ¬m.ReadsFrom id ref x) : (m.write ref id w).lookup? x y = m.lookup? x y := by
  obtain ⟨l, chain⟩ := valid.chains found
  generalize start : some x = s at chain
  induction chain generalizing x rx with
  | nil => cases start
  | @cons _ rx _ at_x links ih =>
    cases start
    cases found.symm.trans at_x
    obtain ⟨rx', found', refilled, _⟩ := valid.write_record genuine ref id found
    rw [valid.lookup?_eq found, (valid.write target genuine).lookup?_eq found', refilled.proto,
      valid.own?_unseen target genuine named found unseen found']
    cases missing : m.own? rx y with
    | some v => rfl
    | none =>
      cases link : rx.proto with
      | none => rfl
      | some q =>
        have unseen' : y = id → ¬m.ReadsFrom id ref q := by
          rintro rfl reads
          exact unseen rfl (.inherit found missing link reads)
        obtain ⟨rq, at_q⟩ : ∃ rq, m.heap.get? q = some rq := by
          rw [link] at links
          cases links with
          | cons at_q _ => exact ⟨_, at_q⟩
        simpa using ih at_q unseen' link.symm

/-- A record that is written to has the property of its own. -/
theorem Valid.own?_written (valid : m.Valid) (found : m.heap.get? ref = some r) (genuine : m.heap.Genuine w) :
    (m.write ref id w).own? (r.put m.hash m.types.names id w) id = some w := by
  have old := valid.records found
  have found' := Heap.get?_update_same found (·.put m.hash m.types.names id w)
  have entry : (r.put m.hash m.types.names id w).slotOf? id = r.slotOf? id := (old.put genuine).slotOf? id
  cases place : r.slotOf? id with
  | none =>
    rw [own?_of_store (entry.trans place)]
    simp only [Record.put, place]
    exact (r.dynGet?_dynPut_withStore old.store _ _ w _).trans (if_pos rfl)
  | some i =>
    obtain ⟨s, v, slot, resolves, own⟩ := (valid.write found genuine).own?_of_slot found' (entry.trans place)
    have here : (r.put m.hash m.types.names id w).slots[i]? = some (.here w) := by
      simp only [Record.put, place]
      rw [Record.setSlot_slots, Array.getElem?_setIfInBounds, if_pos rfl, if_pos (old.slot_lt place).2]
    cases here.symm.trans slot
    cases resolves
    exact own

/-- A record whose read ends at the record that is written to reads the new value. -/
theorem Valid.lookup?_seen (valid : m.Valid) (target : m.heap.get? ref = some r) (genuine : m.heap.Genuine w)
    (reads : m.ReadsFrom id ref x) : (m.write ref id w).lookup? x id = some w := by
  have valid' : (m.write ref id w).Valid := valid.write target genuine
  have target' : (m.write ref id w).heap.get? ref = _ := Heap.get?_update_same target _
  have written : (m.write ref id w).lookup? ref id = some w := by
    rw [valid'.lookup?_eq target', valid.own?_written target genuine]
    rfl
  induction reads with
  | self => exact written
  | @forward x q rx i j found place slot rest ih =>
    by_cases same : x = ref
    · exact same ▸ written
    have found' : (m.write ref id w).heap.get? x = some rx := (write_get?_ne same).trans found
    obtain ⟨s, v, slot', resolves, own⟩ := valid'.own?_of_slot found' place
    cases slot.symm.trans slot'
    cases resolves with
    | @forward _ _ rq s _ at_q inner resolves =>
      obtain ⟨_, here, entry⟩ := valid'.aligned found' id i q j place slot
      cases at_q.symm.trans here
      obtain ⟨s', v', slot', resolves', own'⟩ := valid'.own?_of_slot at_q entry
      cases inner.symm.trans slot'
      cases resolves.unique resolves'
      rw [valid'.lookup?_eq at_q, own'] at ih
      rw [valid'.lookup?_eq found', own]
      exact ih
  | @inherit x q rx found missing link rest ih =>
    by_cases same : x = ref
    · exact same ▸ written
    have found' : (m.write ref id w).heap.get? x = some rx := (write_get?_ne same).trans found
    have free : rx.slotOf? id = none := by
      cases place : rx.slotOf? id with
      | none => rfl
      | some i =>
        obtain ⟨_, _, _, _, own⟩ := valid.own?_of_slot found place
        cases missing.symm.trans own
    have missing' : (m.write ref id w).own? rx id = none := by
      rw [own?_of_store free] at missing ⊢
      exact missing
    rw [valid'.lookup?_eq found', missing', link]
    exact ih

theorem Valid.write_origin (valid : m.Valid) (target : m.heap.get? ref = some r) (genuine : m.heap.Genuine w)
    {rx' : Record} (found' : (m.write ref id w).heap.get? x = some rx') :
    ∃ rx, m.heap.get? x = some rx ∧ rx.Refilled m.heap rx' ∧ rx'.elems? = rx.elems? := by
  obtain ⟨rx, found⟩ : ∃ rx, m.heap.get? x = some rx := by
    by_cases same : x = ref
    · exact ⟨r, same ▸ target⟩
    · exact ⟨rx', (write_get?_ne same).symm.trans found'⟩
  obtain ⟨_, here, record⟩ := valid.write_record genuine ref id found
  cases found'.symm.trans here
  exact ⟨rx, found, record⟩

/-- Tags are not written to, so values fit the same types. -/
theorem Valid.write_fits (valid : m.Valid) (target : m.heap.get? ref = some r) (genuine : m.heap.Genuine w)
    {t : TypeId} : (m.write ref id w).Fits v t ↔ m.Fits v t := by
  constructor
  · refine fun fits => fits.retag rfl rfl ?_
    rintro x suits ⟨rx', u, found', tag, suited⟩
    obtain ⟨rx, found, refilled, _⟩ := valid.write_origin target genuine found'
    exact ⟨rx, u, found, refilled.tag.symm.trans tag, suited⟩
  · refine fun fits => fits.retag rfl rfl ?_
    rintro x suits ⟨rx, u, found, tag, suited⟩
    obtain ⟨rx', found', refilled, _⟩ := valid.write_record genuine ref id found
    exact ⟨rx', u, found', refilled.tag.trans tag, suited⟩

/-- The value has the type that the record declares for the property, if it declares one. -/
def Admits (m : Machine) (x : Ref) (id : PropId) (w : Word) : Prop :=
  ∀ r t p, m.heap.get? x = some r → r.tag = some t → p ∈ (m.types.graph.node t).props → p.id = id →
    ∃ u ∈ p.type, m.Conforms w u

/-- After a write to a typed object all is well-typed if and only if the new value has the type that each
record declares that reads it. -/
theorem Valid.write_wellTyped_iff (valid : m.Valid) (typed : m.WellTyped) (target : m.heap.get? ref = some r)
    {t : TypeId} (tag : r.tag = some t) {props : List Property} (shape : m.types.graph.node t = .object props)
    (genuine : m.heap.Genuine w) :
    (m.write ref id w).WellTyped ↔ ∀ x, m.ReadsFrom id ref x → m.Admits x id w := by
  have upright := typed.upright valid
  have valid' : (m.write ref id w).Valid := valid.write target genuine
  constructor
  · intro typed' x reads rx u p found declares member same
    subst same
    obtain ⟨rx', found', refilled, _⟩ := valid.write_record genuine ref p.id found
    have upholds := (typed'.upright valid').upholds found' (refilled.tag.trans declares)
    obtain ⟨v, present, s, type, fits⟩ := upholds.property member
    cases present.symm.trans (valid.lookup?_seen target genuine reads)
    exact ⟨s, type, upright.conforms valid ((valid.write_fits target genuine).1 fits)⟩
  · intro admits
    refine Upright.wellTyped ⟨fun {x rx'} found' => ?_, fun {x rx' u} found' declares' => ?_⟩ valid'
    · obtain ⟨rx, found, refilled, _⟩ := valid.write_origin target genuine found'
      exact refilled.migrating.trans (upright.done found)
    · obtain ⟨rx, found, refilled, elems⟩ := valid.write_origin target genuine found'
      have declares := refilled.tag.symm.trans declares'
      have upholds := upright.upholds found declares
      have part {v : Word} {c : Child} (fits : ∃ s ∈ c, m.Fits v s) : ∃ s ∈ c, (m.write ref id w).Fits v s := by
        obtain ⟨s, type, fits⟩ := fits
        exact ⟨s, type, (valid.write_fits target genuine).2 fits⟩
      unfold Upholds
      rw [write_types]
      cases form : m.types.graph.node u with
      | object ps =>
        intro p member
        have member : p ∈ (m.types.graph.node u).props := form ▸ member
        by_cases seen : p.id = id ∧ m.ReadsFrom id ref x
        · obtain ⟨rfl, reads⟩ := seen
          obtain ⟨s, type, conforms⟩ := admits x reads rx u p found declares member rfl
          exact ⟨w, valid.lookup?_seen target genuine reads, part ⟨s, type, conforms.parts.fits⟩⟩
        · obtain ⟨v, present, fits⟩ := upholds.property member
          have named := ((valid.records found).tagged u declares).1.named p member
          have unseen := valid.lookup?_unseen target genuine named found fun same reads => seen ⟨same, reads⟩
          exact ⟨v, unseen.trans present, part fits⟩
      | array elem =>
        intro d here i inside
        unfold Upholds at upholds
        rw [form] at upholds
        exact part (upholds d (elems ▸ here) i inside)
      | map elem =>
        intro name v present
        have other : x ≠ ref := by
          rintro rfl
          cases found.symm.trans target
          cases declares.symm.trans tag
          cases form.symm.trans shape
        cases found.symm.trans ((write_get?_ne other).symm.trans found')
        unfold Upholds at upholds
        rw [form] at upholds
        exact part (upholds name v present)
      | _ => trivial

end Machine

namespace Run

variable {m : Machine} {ref : Ref} {r : Record} {obj w : Word} {id : PropId}

theorem ends_propRecord_eq {operation : String} {ok : Ref × Record → Machine → Prop} {err : Fault → Machine → Prop}
    (known : obj.decode? = some (.object ref) ∨ obj.decode? = some (.closure ref)) (found : m.heap.get? ref = some r) :
    Ends (propRecord operation obj) m ok err ↔ ok (ref, r) m := by
  rcases known with known | known <;> simp [propRecord, ends_decode known, ends_recordAt found]

/-- A write to a named property never fails, unless it is of a box. -/
theorem setProp_eq_write (valid : m.Valid)
    (known : obj.decode? = some (.object ref) ∨ obj.decode? = some (.closure ref)) (found : m.heap.get? ref = some r)
    (genuine : m.heap.Genuine w) (bare : ∀ b, w.decode? ≠ some (.box b)) (named : m.types.names.name id ≠ "") :
    setProp obj id w m = .ok () (m.write ref id w) := by
  obtain ⟨v, value, _⟩ := genuine
  have unboxed : v.kind ≠ .box := by
    cases v with
    | box b => exact absurd value (bare b)
    | _ => nofun
  apply Ends.eq_ok
  simp only [setProp, ends_bind, ends_decode value, if_neg unboxed, ends_propRecord_eq known found]
  cases place : r.slotOf? id with
  | some i =>
    dsimp only
    rw [if_pos ((valid.records found).slot_lt place).2, ends_updateRecord, Machine.write,
      Heap.update_congr found (f := (·.put m.hash m.types.names id w)) (g := (·.setSlot i (.here w)))
        (by simp only [Record.put, place])]
    exact ⟨trivial, rfl⟩
  | none =>
    -- the store is there, maybe empty, when the value is put into it
    rw [ends_bind, ends_openStore, ends_bind]
    refine (ends_propName ?_).2 ?_
    · exact named
    rw [ends_updateRecord, Heap.update_update, Machine.write,
      Heap.update_congr found (f := (·.put m.hash m.types.names id w)) (by simp only [Record.put, place]; rfl)]
    exact ⟨trivial, rfl⟩

theorem setProp_eq (valid : m.Valid) (known : obj.decode? = some (.object ref)) (found : m.heap.get? ref = some r)
    (genuine : m.heap.Genuine w) (bare : ∀ b, w.decode? ≠ some (.box b)) (named : m.types.names.name id ≠ "") :
    setProp obj id w m = .ok () (m.write ref id w) :=
  setProp_eq_write valid (.inl known) found genuine bare named

/-- In a well-typed heap, a write of a value of the declared type succeeds and is read back. It leaves a
well-typed heap if and only if every other record that reads the property from the object admits the
value too. -/
theorem setProp_wellTyped_iff (reachable : m.Reachable) (typed : m.WellTyped)
    (known : obj.decode? = some (.object ref)) (found : m.heap.get? ref = some r) {t u : TypeId} {p : Property}
    (tag : r.tag = some t) (declared : p ∈ (m.types.graph.node t).props) (type : p.type = some u)
    (genuine : m.heap.Genuine w) (bare : ∀ b, w.decode? ≠ some (.box b)) (conforms : m.Conforms w u) :
    ∃ m', setProp obj p.id w m = .ok () m' ∧ getProp obj p.id m' = .ok w m' ∧
      (m'.WellTyped ↔ ∀ x ≠ ref, m.ReadsFrom p.id ref x → m.Admits x p.id w) := by
  have valid := reachable.valid
  have proper := ((valid.records found).tagged t tag).1
  have named := proper.named p declared
  obtain ⟨props, shape⟩ := Node.object_of_mem_props declared
  have valid' : (m.write ref p.id w).Valid := valid.write found genuine
  refine ⟨_, setProp_eq valid known found genuine bare named, ?_, ?_⟩
  · have found' := Heap.get?_update_same found (·.put m.hash m.types.names p.id w)
    rw [getProp_eq valid' (.inl known) found' named, valid.lookup?_seen found genuine .self]
    rfl
  · rw [valid.write_wellTyped_iff typed found tag shape genuine]
    refine ⟨fun admits x _ => admits x, fun admits x reads => ?_⟩
    by_cases same : x = ref
    · subst same
      intro rx t' q found' tag' declared' same
      cases found.symm.trans found'
      cases tag.symm.trans tag'
      have formed := proper.wellFormed.node
      rw [shape] at formed declared declared'
      cases List.inj_on_of_nodup_map formed.1 declared declared' same.symm
      exact ⟨u, type, conforms⟩
    · exact admits x same reads

end Run

namespace Machine

/-- The inheriting object has taken the type `{readonly x: int}` and shares the slot of the other one. -/
def sharing : Machine := (Run.coerce (Word.objectRef 2) (some 7)).after inheriting

theorem sharing_reachable : sharing.Reachable :=
  .step inheriting_reachable (.coerce (inheriting_genuine 2 (by decide)) (inheriting_proper 7 (by decide)))

theorem sharing_wellTyped : sharing.WellTyped := by
  refine Upright.wellTyped ⟨fun {ref r} found => ?_, fun {ref r t} found tag => ?_⟩ sharing_reachable.valid
  · obtain rfl | rfl := eq_of_size_two rfl found <;> cases found <;> rfl
  · obtain rfl | rfl := eq_of_size_two rfl found <;> cases found <;> cases tag
    · intro p member
      cases List.mem_singleton.1 member
      exact ⟨Word.ofInt 5, rfl, 5, rfl, .inr (.inl rfl)⟩
    · intro p member
      cases List.mem_singleton.1 member
      exact ⟨Word.ofInt 5, rfl, 0, rfl, .inr (.inr ⟨.int 5, rfl, rfl⟩)⟩

end Machine

namespace Run

/-- The first object may hold anything, but the second one reads from it what it declared an int. -/
theorem setProp_wellTyped_iff_sharing :
    coerce (Word.objectRef 2) (some 7) Machine.inheriting = .ok (Word.objectRef 2) Machine.sharing ∧
    Machine.sharing.WellTyped ∧ ∃ m', setProp (Word.objectRef 1) 0 (Word.ofBool true) Machine.sharing = .ok () m' ∧
      getProp (Word.objectRef 1) 0 m' = .ok (Word.ofBool true) m' ∧ ¬m'.WellTyped := by
  have known : (Word.objectRef 1).decode? = some (.object 1) := rfl
  have value : (Word.ofBool true).decode? = some (.bool true) := rfl
  have valid := Machine.sharing_reachable.valid
  have conforms : Machine.sharing.Conforms (Word.ofBool true) 5 :=
    (Machine.sharing_wellTyped.upright valid).conforms valid (.inr (.inl rfl))
  have declared : (⟨0, some 5, false⟩ : Property) ∈ (Machine.sharing.types.graph.node 6).props :=
    List.mem_singleton.2 rfl
  obtain ⟨m', set, get, iff⟩ := setProp_wellTyped_iff Machine.sharing_reachable Machine.sharing_wellTyped known
    rfl rfl declared rfl ⟨_, value, nofun⟩ (by rw [value]; nofun) conforms
  refine ⟨rfl, Machine.sharing_wellTyped, m', set, get, fun typed => ?_⟩
  have reads : Machine.sharing.ReadsFrom 0 1 2 := .forward rfl rfl rfl .self
  have shared : (⟨0, some 0, true⟩ : Property) ∈ (Machine.sharing.types.graph.node 7).props :=
    List.mem_singleton.2 rfl
  obtain ⟨u, type, admitted⟩ := iff.1 typed 2 (by decide) reads _ 7 _ rfl rfl shared rfl
  cases type
  rcases admitted.parts.fits with impossible | impossible | ⟨v, same, prim⟩
  · cases impossible
  · cases impossible
  · cases same
    cases prim

end Run

end Gradual
