import Gradual.Proofs.Coercion.Outcome

/-!
Migration: how an untyped object gets its layout. One property after the other moves from the store into
a slot or is found on a prototype, while coercions of the values in between may migrate other records,
look at this one and read through it.
-/
namespace Gradual

/-- Writable properties first, then the others: none is left out. -/
theorem Node.readWrite_append_readOnly_perm (props : List Property) :
    ((Node.object props).readWrite ++ (Node.object props).readOnly).Perm props := by
  have perm := List.filter_append_perm (fun p : Property => !p.readOnly) props
  simpa [Node.readWrite, Node.readOnly, Node.props] using perm

namespace Run

variable {base : Nat} {recur : Recur} {m : Machine}

/-- The fault of a part is a fault of the whole. -/
theorem fault_violation {free : Option Ref} {m' : Machine} (evolves : m.Evolves base free m') (v : Violation) :
    (Fault.violation v).Raised { m' with dirty := true } ∧ m.Evolves base free { m' with dirty := true } :=
  ⟨trivial, evolves.dirty true⟩

theorem ends_nextSlot {ok : Nat → Machine → Prop} {err : Fault → Machine → Prop} {ref : Ref} {r : Record}
    (found : m.heap.get? ref = some r) {name : String} (room : r.fixedSize < r.slots.size → ok r.fixedSize m)
    (fault : ∀ v, err (.violation v) { m with dirty := true }) : Ends (nextSlot ref name) m ok err := by
  simp only [nextSlot, ends_bind, ends_recordAt found]
  split
  · simp only [ends_bind, ends_violate]
    exact fault _
  next enough =>
    simp only [ends_pure]
    exact room (Nat.not_le.1 enough)

theorem ends_setSlot {ok : Unit → Machine → Prop} {err : Fault → Machine → Prop} {ref : Ref} {r : Record} {i : Nat}
    {s : Slot} (found : m.heap.get? ref = some r) (inside : i < r.slots.size) :
    Ends (setSlot ref i s) m ok err ↔ ok () { m with heap := m.heap.update ref (·.setSlot i s) } := by
  simp [setSlot, ends_recordAt found, inside]

theorem ends_install {ok : Unit → Machine → Prop} {err : Fault → Machine → Prop} {ref : Ref} {r : Record}
    {l : FixedLayout} {id : PropId} {n : Nat} (found : m.heap.get? ref = some r) (layout : r.layout = some l)
    (unpublished : l.table.published = false) (free : l.table.slot? id = none) :
    Ends (install ref id n) m ok err ↔ ok () { m with heap := m.heap.update ref fun r =>
      { r with layout := some { l with table := ⟨l.table.entries ++ [(id, n)], l.table.published⟩ } } } := by
  simp [install, ends_recordAt found, layout, Layout.install, unpublished, free]

/-- A finished layout is published already. -/
theorem ends_publish {ok : Unit → Machine → Prop} {err : Fault → Machine → Prop} {ref : Ref} {r : Record}
    (valid : m.Valid) (found : m.heap.get? ref = some r) (done : r.migrating = false) :
    Ends (publish ref) m ok err ↔ ok () m := by
  have same : r.layout.map (fun l => { l with table := l.table.publish }) = r.layout := by
    cases layout : r.layout with
    | none => rfl
    | some l =>
      have published := ((valid.records found).layout l layout).published
      rw [done] at published
      have frozen : l.table.publish = l.table := by
        unfold Layout.publish
        rw [← show l.table.published = true from published]
      rw [Option.map_some, frozen]
  rw [publish, ends_updateRecord, Heap.update_eq_self found (by rw [same])]

/-- A promise is kept: the value in the slot fits the type without a look at it. -/
theorem ends_promises {ok : Bool → Machine → Prop} {err : Fault → Machine → Prop} {owner : Ref} {r : Record}
    {p : Property} {i : Nat} {u : TypeId} (valid : m.Valid) (found : m.heap.get? owner = some r)
    (slot : r.slotOf? p.id = some i) (type : p.type = some u) (proper : m.types.Proper u)
    (answer : ∀ yes, (yes = true → m.Trusted → ∃ v, m.own? r p.id = some v ∧ m.Fits v u) → ok yes m)
    (fault : ∀ v, err (.violation v) { m with dirty := true }) : Ends (promises r p) m ok err := by
  unfold promises
  split
  · exact answer false nofun
  next finished =>
    cases tag : r.tag with
    | none => exact answer false nofun
    | some t =>
      simp only [ends_bind, ends_node]
      cases declared : (m.types.graph.node t).property? p.id with
      | none => exact answer false nofun
      | some q =>
        have member : q ∈ (m.types.graph.node t).props := List.mem_of_find?_eq_some declared
        have same : q.id = p.id := by simpa using List.find?_some declared
        obtain ⟨properT, suits⟩ := (valid.records found).tagged t tag
        obtain ⟨u', type', proper'⟩ := properT.property member
        simp only [type, type']
        refine ends_verdict proper'.wellFormed proper.wellFormed (fun yes result => answer yes ?_) (fault _)
        rintro rfl trusted
        have equal := Machine.equal_of_decide trusted.truthful proper'.wellFormed proper.wellFormed result
        cases shape : m.types.graph.node t with
        | object props =>
          have upholds := trusted.upholds found tag shape (by simpa using finished)
          rw [Machine.Upholds, shape] at upholds
          rw [shape] at member
          obtain ⟨v, present, u'', type'', fits⟩ := upholds q member
          cases type'.symm.trans type''
          obtain ⟨_, w, _, _, own⟩ := valid.own?_of_slot found slot
          rw [same, valid.lookup?_eq found, own] at present
          cases present
          exact ⟨v, own, fits.equal valid equal⟩
        | _ =>
          rw [shape] at member
          cases member

theorem ends_coerceSlot (faithful : Faithful base recur) (valid : m.Valid) (large : base ≤ m.heap.size) {owner : Ref}
    {r : Record} {p : Property} {i : Nat} {u : TypeId} (found : m.heap.get? owner = some r)
    (slot : r.slotOf? p.id = some i) (named : m.types.names.name p.id ≠ "") (type : p.type = some u)
    (proper : m.types.Proper u) :
    Ends (coerceSlot recur owner i p) m
      (fun _ m' => m.Evolves base none m' ∧ (m.Trusted → m.Settled m' ∧
        ∃ r' v, m'.heap.get? owner = some r' ∧ m'.own? r' p.id = some v ∧ m'.Fits v u))
      fun f m' => f.Raised m' ∧ m.Evolves base none m' := by
  obtain ⟨s, w, at_slot, resolves, own⟩ := valid.own?_of_slot found slot
  simp only [coerceSlot, ends_bind, ends_recordAt found]
  refine ends_promises valid found slot type proper (fun yes promised => ?_) (fault_violation (.refl valid))
  cases yes with
  | true =>
    refine ⟨.refl valid, fun trusted => ⟨.refl, ?_⟩⟩
    obtain ⟨v, own, fits⟩ := promised rfl trusted
    exact ⟨r, v, found, own, fits⟩
  | false =>
    simp only [Bool.false_eq_true, if_false, ends_bind, ends_readSlot valid found at_slot resolves, type]
    refine (faithful m w u valid large (valid.own?_genuine found own) proper).mono (fun w' m₂ coerced => ?_)
      fun _ _ fault => fault
    obtain ⟨r₂, found₂, own₂, place⟩ := coerced.own valid found named own
    split
    next same =>
      -- nothing was converted, and the value is still in the slot
      refine ⟨coerced.evolves, fun trusted => ?_⟩
      obtain ⟨settled, fits⟩ := coerced.sound trusted
      exact ⟨settled, r₂, w, found₂, own₂, same ▸ fits⟩
    next converted =>
      -- a conversion changes no record, so the owner is as it was
      obtain rfl : r₂ = r := place.resolve_right converted
      have evolves := coerced.evolves
      simp only [ends_bind, ends_recordAt found₂]
      split
      next =>
        have named₂ : m₂.types.names.name p.id ≠ "" := evolves.types ▸ named
        simp only [ends_bind, ends_propName named₂, ends_format, ends_violate]
        exact fault_violation evolves _
      next writable =>
        rw [Bool.or_eq_true, not_or, Bool.and_eq_true, not_and] at writable
        have migrating : r₂.migrating = true := by
          simpa using writable.2 ((valid.records found).tag_of_slot slot)
        have here : r₂.slots[i]? = some (.here w) := by
          cases s with
          | here v => cases resolves; exact at_slot
          | forward q j => simp [at_slot, Slot.isForward] at writable
        have inside := ((valid.records found).slot_lt slot).2
        rw [ends_setSlot found₂ inside]
        have step : m₂.Evolves base none { m₂ with heap := m₂.heap.update owner (·.setSlot i (.here w')) } :=
          .slotStored evolves.valid found₂ migrating slot here (coerced.genuine (valid.own?_genuine found own))
            coerced.kept
        refine ⟨evolves.trans step, fun trusted => ?_⟩
        obtain ⟨settled, fits⟩ := coerced.sound trusted
        have found₃ := Heap.get?_update_same found₂ (·.setSlot i (.here w'))
        refine ⟨settled.trans evolves.valid step (.update found₂ ?_) fun _ here => ?_, _, w', found₃, ?_,
          fits.evolves step⟩
        · rw [Record.setSlot_eq]
        · cases here
        · have slot₃ : (r₂.setSlot i (.here w')).slotOf? p.id = some i := by rw [Record.setSlot_eq]; exact slot
          obtain ⟨s', v, at_slot₃, resolves₃, own₃⟩ := step.valid.own?_of_slot found₃ slot₃
          rw [Record.setSlot_slots, Machine.Evolves.getElem?_set inside, if_pos rfl] at at_slot₃
          cases at_slot₃
          cases resolves₃
          exact own₃

/-- The record `ref` is being given the layout of type `t` and has no slot yet for the properties that
are still pending. -/
structure Migrating (m : Machine) (ref : Ref) (t : TypeId) (pending : List Property) (r : Record) : Prop where
  found : m.heap.get? ref = some r
  tag : r.tag = some t
  migrating : r.migrating = true
  free : ∀ p ∈ pending, r.slotOf? p.id = none

structure Provided (base : Nat) (m : Machine) (ref : Ref) (t : TypeId) (p : Property) (pending : List Property)
    (m' : Machine) : Prop where
  evolves : m.Evolves base (some ref) m'
  migrating : ∃ r, Migrating m' ref t pending r
  sound : m.Trusted → m.Settled m' ∧ ∃ v, m'.lookup? ref p.id = some v ∧ ∃ u ∈ p.type, m'.Fits v u

variable {ref : Ref} {r : Record} {t u : TypeId} {p : Property} {pending : List Property}

/-- Coercions of parts leave the layout as it is. -/
theorem Migrating.evolves (state : Migrating m ref t pending r) {m' : Machine} (evolves : m.Evolves base none m') :
    ∃ r', Migrating m' ref t pending r' ∧ r'.layout = r.layout ∧ r'.proto = r.proto := by
  obtain ⟨r', found', record⟩ := evolves.records state.found
  have tagged : r.tag.isSome := by rw [state.tag]; rfl
  obtain ⟨layout, migrating, _⟩ := record.frozen tagged nofun
  refine ⟨r', ⟨found', record.tag t state.tag, migrating.trans state.migrating, fun p member => ?_⟩, layout,
    record.proto⟩
  have := state.free p member
  unfold Record.slotOf? at this ⊢
  rwa [layout]

/-- The layout takes one more property, and the others are still pending. -/
theorem Migrating.extended {n : Nat} {s : Slot} {f : Record → Record} (state : Migrating m ref t (p :: pending) r)
    (extended : Extended m r p.id n s (f r)) (others : ∀ q ∈ pending, q.id ≠ p.id) :
    Migrating { m with heap := m.heap.update ref f } ref t pending (f r) where
  found := Heap.get?_update_same state.found f
  tag := by
    obtain ⟨_, _, _, _, eq⟩ := extended.layout
    rw [eq]
    exact state.tag
  migrating := by
    obtain ⟨_, _, _, _, eq⟩ := extended.layout
    rw [eq]
    exact state.migrating
  free q member := by
    rw [extended.slotOf?, if_neg (others q member)]
    exact state.free q (List.mem_cons_of_mem _ member)

def extend (l : FixedLayout) (id : PropId) (n : Nat) (s : Slot) (r : Record) : Record :=
  { r.setSlot n s with layout := some { l with table := ⟨l.table.entries ++ [(id, n)], l.table.published⟩ } }

theorem extend_eq (l : FixedLayout) (id : PropId) (n : Nat) (s : Slot) (r : Record) : extend l id n s r =
    { r with
      body := (r.setSlot n s).body
      layout := some { l with table := ⟨l.table.entries ++ [(id, n)], l.table.published⟩ } } := by
  unfold extend Record.setSlot
  split <;> rfl

/-- A slot is set and installed in one go: nothing can fail in between. -/
theorem ends_setSlot_install {ok : Unit → Machine → Prop} {err : Fault → Machine → Prop} {n : Nat} {s : Slot}
    {l : FixedLayout} (valid : m.Valid) (state : Migrating m ref t (p :: pending) r) (layout : r.layout = some l)
    (room : n < r.slots.size) : Ends (setSlot ref n s) m (fun _ m' => Ends (install ref p.id n) m' ok err) err ↔
      ok () { m with heap := m.heap.update ref (extend l p.id n s) } := by
  have published : l.table.published = false := by
    rw [((valid.records state.found).layout l layout).published, state.migrating]
    rfl
  have free : l.table.slot? p.id = none := by
    have := state.free p List.mem_cons_self
    rwa [Record.slotOf?, layout, Option.bind_some] at this
  have layout' : (r.setSlot n s).layout = some l := by rw [Record.setSlot_eq, layout]
  rw [ends_setSlot state.found room, ends_install (Heap.get?_update_same state.found _) layout' published free,
    Heap.update_update]
  rfl

/-- A property that the nearest prototype has in a slot is shared with it. -/
theorem ends_share {ok : Unit → Machine → Prop} {err : Fault → Machine → Prop} {q : Ref} {rq : Record} {i : Nat}
    (valid : m.Valid) (state : Migrating m ref t (p :: pending) r) (others : ∀ x ∈ pending, x.id ≠ p.id)
    (member : p ∈ (m.types.graph.node t).props) (readOnly : p.readOnly = true) (missing : m.own? r p.id = none)
    (at_q : m.heap.get? q = some rq) (slot : rq.slotOf? p.id = some i) (done : rq.migrating = false)
    (proto : r.proto = some q)
    (result : ∀ m' r', m.Evolves base (some ref) m' → Migrating m' ref t pending r' → m.Settled m' → ok () m')
    (fault : ∀ v, err (.violation v) { m with dirty := true }) :
    Ends (do let own ← nextSlot ref (m.types.names.name p.id)
             publish q
             setSlot ref own (.forward q i)
             install ref p.id own) m ok err := by
  have old := valid.records state.found
  obtain ⟨_, l, _, layout, _⟩ := old.migrating_object state.migrating
  have free := state.free p List.mem_cons_self
  rw [ends_bind]
  refine ends_nextSlot state.found (fun room => ?_) fault
  rw [ends_bind, ends_publish valid at_q done, ends_bind, ends_setSlot_install valid state layout room]
  have extended : Extended m r p.id r.fixedSize (.forward q i) (extend l p.id r.fixedSize (.forward q i) r) := {
    migrating := state.migrating
    named := (old.tagged t state.tag).1.named p member
    layout := by
      refine ⟨l, layout, by simp [Record.fixedSize, layout, Layout.size], ?_, by rw [extend_eq]⟩
      rwa [Record.slotOf?, layout, Option.bind_some] at free
    room := room
    here := nofun
    forward := fun _ _ same => by
      cases same
      exact ⟨⟨rq, at_q, ((valid.records at_q).slot_lt slot).2, (valid.records at_q).tag_of_slot slot, done⟩,
        rq, at_q, slot⟩
    store := by rw [extend_eq]; exact old.store
    others := fun _ _ => by rw [extend_eq]; rfl
    hasStore := by rw [extend_eq]
    gone := by
      rw [Machine.own?_of_store free] at missing
      rw [extend_eq]
      exact missing }
  have state' := state.extended extended others
  refine result _ _ (extended.evolves valid state.found (.inr ⟨missing, ?_⟩)) state'
    (.update state.found (state'.tag.trans state.tag.symm))
  have different : q ≠ ref := by
    rintro rfl
    cases at_q.symm.trans state.found
    rw [state.migrating] at done
    cases done
  refine ⟨t, p, q, rq, r.fixedSize, i, state'.tag, member, rfl, readOnly, ?_, ?_, ?_, ?_, slot⟩
  · rw [extend_eq]
    exact proto
  · exact (Heap.get?_update_ne different _).trans at_q
  · rw [extended.slotOf?, if_pos rfl]
  · rw [extended.slots, Machine.Evolves.getElem?_set room, if_pos rfl]

/-- A property in a fixed slot of a prototype is coerced there and shared if it can be. -/
theorem ends_inherit_slot (faithful : Faithful base recur) (valid : m.Valid) (large : base ≤ m.heap.size)
    (state : Migrating m ref t (p :: pending) r) (others : ∀ x ∈ pending, x.id ≠ p.id)
    (member : p ∈ (m.types.graph.node t).props) (readOnly : p.readOnly = true)
    (named : m.types.names.name p.id ≠ "") (type : p.type = some u) (proper : m.types.Proper u)
    (missing : m.own? r p.id = none) {q : Ref} {rq : Record} {i : Nat} (at_q : m.heap.get? q = some rq)
    (slot : rq.slotOf? p.id = some i)
    (path : ∀ free m', m.Evolves base free m' → m'.lookup? ref p.id = m'.lookup? q p.id) :
    Ends (do coerceSlot recur q i p
             let nearest := (← recordAt ref).proto = some q
             if nearest && !(← recordAt q).migrating then
               let own ← nextSlot ref (m.types.names.name p.id)
               publish q
               setSlot ref own (.forward q i)
               install ref p.id own
             return true) m
      (fun found m' => found = true ∧ Provided base m ref t p pending m')
      fun f m' => f.Raised m' ∧ m.Evolves base (some ref) m' := by
  rw [ends_bind]
  refine (ends_coerceSlot faithful valid large at_q slot named type proper).mono (fun _ m₂ outcome => ?_)
    fun _ _ fault => ⟨fault.1, fault.2.weaken⟩
  obtain ⟨evolves, sound⟩ := outcome
  obtain ⟨r₂, state₂, _, proto₂⟩ := state.evolves evolves
  obtain ⟨rq₂, at_q₂, record⟩ := evolves.records at_q
  have slot₂ := record.entry slot
  -- the prototype's slot is what reads through `ref` find, now and after every further step
  have fits_at_q (trusted : m.Trusted) : ∃ v, m₂.lookup? q p.id = some v ∧ m₂.Fits v u := by
    obtain ⟨_, rq', v, at_q', own, fits⟩ := sound trusted
    cases at_q₂.symm.trans at_q'
    exact ⟨v, by rw [evolves.valid.lookup?_eq at_q₂, own]; rfl, fits⟩
  simp only [ends_bind, ends_recordAt state₂.found, ends_recordAt at_q₂]
  split
  next near =>
    rw [Bool.and_eq_true, decide_eq_true_eq, Bool.not_eq_true'] at near
    have missing₂ : m₂.own? r₂ p.id = none := by
      cases own : m₂.own? r₂ p.id with
      | none => rfl
      | some v =>
        obtain ⟨r', found', grown⟩ := evolves.records state.found
        cases found'.symm.trans state₂.found
        obtain ⟨_, _, _, _, _, _, _, _, _, _, _, _, slot, _⟩ := (grown.grown named missing own).2
        rw [state₂.free p List.mem_cons_self] at slot
        cases slot
    have shared (m₃ : Machine) (r₃ : Record) (step : m₂.Evolves base (some ref) m₃)
        (state₃ : Migrating m₃ ref t pending r₃) (settled : m₂.Settled m₃) :
        true = true ∧ Provided base m ref t p pending m₃ := by
      refine ⟨rfl, evolves.weaken.trans step, ⟨r₃, state₃⟩, fun trusted => ⟨?_, ?_⟩⟩
      · refine (sound trusted).1.trans evolves.valid step settled fun x here => ?_
        cases here
        exact ⟨r, state.found, by rw [state.tag]; rfl⟩
      · obtain ⟨v, present, fits⟩ := fits_at_q trusted
        obtain ⟨v', present', fits'⟩ := fits.lookup? evolves.valid step (evolves.types ▸ named) at_q₂ present
        exact ⟨v', (path (some ref) m₃ (evolves.weaken.trans step)).trans present', u, type, fits'⟩
    have share : Ends _ m₂ (fun _ m₃ => true = true ∧ Provided base m ref t p pending m₃)
        fun f m₃ => f.Raised m₃ ∧ m.Evolves base (some ref) m₃ :=
      ends_share evolves.valid state₂ others (evolves.types ▸ member) readOnly missing₂ at_q₂ slot₂ near.2 near.1
        shared (fault_violation evolves.weaken)
    rw [evolves.types] at share
    simp only [ends_bind, ends_pure] at share ⊢
    exact share
  next =>
    refine ⟨rfl, evolves.weaken, ⟨r₂, { state₂ with free := fun x later => state₂.free x (.tail _ later) }⟩,
      fun trusted => ⟨(sound trusted).1, ?_⟩⟩
    obtain ⟨v, present, fits⟩ := fits_at_q trusted
    exact ⟨v, (path none m₂ evolves).trans present, u, type, fits⟩

/-- A property in the store of a prototype is coerced and written back there. -/
theorem ends_inherit_store (faithful : Faithful base recur) (valid : m.Valid) (large : base ≤ m.heap.size)
    (state : Migrating m ref t (p :: pending) r) (named : m.types.names.name p.id ≠ "") (type : p.type = some u)
    (proper : m.types.Proper u) {q : Ref} {rq : Record} {w : Word} (at_q : m.heap.get? q = some rq)
    (slot : rq.slotOf? p.id = none) (present : rq.dynGet? (m.types.names.name p.id) = some w)
    (path : ∀ free m', m.Evolves base free m' → m'.lookup? ref p.id = m'.lookup? q p.id) :
    Ends (do let converted ← recur w p.type
             updateRecord q (·.dynPut (m.types.names.name p.id) converted)
             return true) m
      (fun found m' => found = true ∧ Provided base m ref t p pending m')
      fun f m' => f.Raised m' ∧ m.Evolves base (some ref) m' := by
  have own : m.own? rq p.id = some w := (Machine.own?_of_store slot).trans present
  have genuine := valid.own?_genuine at_q own
  rw [ends_bind, type]
  refine (faithful m w u valid large genuine proper).mono (fun w' m₂ coerced => ?_)
    fun _ _ fault => ⟨fault.1, fault.2.weaken⟩
  have evolves := coerced.evolves
  obtain ⟨rq₂, at_q₂, own₂, place⟩ := coerced.own valid at_q named own
  have step : m₂.Evolves base none
      { m₂ with heap := m₂.heap.update q (·.dynPut (m.types.names.name p.id) w') } := by
    rw [← evolves.types]
    refine .stored evolves.valid at_q₂ (coerced.genuine genuine) fun seen => ⟨w, ?_, coerced.kept⟩
    have free : rq₂.slotOf? p.id = none := by
      rcases seen with layout | ⟨id, same, free⟩
      · exact Record.slotOf?_none_of_layout layout _
      · rwa [NameTable.name_inj evolves.valid.names (evolves.types ▸ named) same.symm]
    rw [← own₂, Machine.own?_of_store free]
  obtain ⟨r₃, state₃, _⟩ := state.evolves (evolves.trans step)
  refine ⟨rfl, (evolves.trans step).weaken, ⟨r₃, { state₃ with free := fun x later => state₃.free x (.tail _ later) }⟩,
    fun trusted => ?_⟩
  obtain ⟨settled, fits⟩ := coerced.sound trusted
  refine ⟨settled.trans evolves.valid step (.update at_q₂ rfl) nofun, ?_⟩
  rw [path none _ (evolves.trans step)]
  cases free : rq₂.slotOf? p.id with
  | none =>
    have at_q₃ := Heap.get?_update_same at_q₂ (·.dynPut (m.types.names.name p.id) w')
    refine ⟨w', ?_, u, type, fits.evolves step⟩
    rw [step.valid.lookup?_eq at_q₃, Machine.own?_of_store (r := rq₂.dynPut _ w') free,
      Record.dynGet?_dynPut (evolves.valid.records at_q₂).store,
      if_pos ⟨by rw [← evolves.types], evolves.hasStore at_q at_q₂ present⟩]
    rfl
  | some i =>
    -- the prototype was given a layout meanwhile, so the value was not converted
    obtain rfl : w' = w := place.resolve_left (by rintro rfl; rw [slot] at free; cases free)
    have present₂ : m₂.lookup? q p.id = some w' := by rw [evolves.valid.lookup?_eq at_q₂, own₂]; rfl
    obtain ⟨v, present₃, fits₃⟩ := fits.lookup? evolves.valid step (evolves.types ▸ named) at_q₂ present₂
    exact ⟨v, present₃, u, type, fits₃⟩

/-- Looks for a property along prototypes that are known to decide reads from `ref`. -/
theorem ends_inherit (faithful : Faithful base recur) (valid : m.Valid) (large : base ≤ m.heap.size)
    (state : Migrating m ref t (p :: pending) r) (others : ∀ x ∈ pending, x.id ≠ p.id)
    (member : p ∈ (m.types.graph.node t).props) (readOnly : p.readOnly = true)
    (named : m.types.names.name p.id ≠ "") (type : p.type = some u) (proper : m.types.Proper u)
    (missing : m.own? r p.id = none) {start : Option Ref} {refs : List Ref} (chain : m.heap.Chain start refs)
    (path : ∀ free m', m.Evolves base free m' → m'.lookup? ref p.id = start.bind (m'.lookup? · p.id)) :
    Ends (inherit recur ref p (m.types.names.name p.id) refs) m
      (fun found m' => if found then Provided base m ref t p pending m' else m' = m)
      fun f m' => f.Raised m' ∧ m.Evolves base (some ref) m' := by
  have provided {act : Run Bool} (ends : Ends act m
      (fun found m' => found = true ∧ Provided base m ref t p pending m')
      fun f m' => f.Raised m' ∧ m.Evolves base (some ref) m') : Ends act m
      (fun found m' => if found then Provided base m ref t p pending m' else m' = m)
      fun f m' => f.Raised m' ∧ m.Evolves base (some ref) m' :=
    ends.mono (fun _ _ ⟨yes, done⟩ => by rw [yes]; exact done) fun _ _ fault => fault
  induction chain with
  | nil => simp [inherit]
  | @cons q rq rest at_q links ih =>
    simp only [inherit, ends_bind, ends_recordAt at_q]
    cases slot : rq.slotOf? p.id with
    | some i =>
      exact provided (ends_inherit_slot faithful valid large state others member readOnly named type proper missing
        at_q slot path)
    | none =>
      cases present : rq.dynGet? (m.types.names.name p.id) with
      | some w =>
        exact provided (ends_inherit_store faithful valid large state named type proper at_q slot present path)
      | none =>
        refine ih fun free m' evolves => ?_
        rw [path free m' evolves]
        exact evolves.lookup?_skip named at_q ((Machine.own?_of_store slot).trans present)

/-- A property of the object's own moves from the store into the next slot. -/
theorem ends_move (faithful : Faithful base recur) (valid : m.Valid) (large : base ≤ m.heap.size)
    (state : Migrating m ref t (p :: pending) r) (others : ∀ x ∈ pending, x.id ≠ p.id)
    (named : m.types.names.name p.id ≠ "") (type : p.type = some u) (proper : m.types.Proper u) {w : Word}
    (present : r.dynGet? (m.types.names.name p.id) = some w) :
    Ends (do let slot ← nextSlot ref (m.types.names.name p.id)
             let converted ← recur w p.type
             setSlot ref slot (.here converted)
             install ref p.id slot
             updateRecord ref fun r => (r.dynErase (m.types.names.name p.id)).1) m
      (fun _ m' => Provided base m ref t p pending m') fun f m' => f.Raised m' ∧ m.Evolves base (some ref) m' := by
  have own : m.own? r p.id = some w := (Machine.own?_of_store (state.free p List.mem_cons_self)).trans present
  have genuine := valid.own?_genuine state.found own
  rw [ends_bind]
  refine ends_nextSlot state.found (fun room => ?_) (fault_violation (.refl valid))
  rw [ends_bind, type]
  refine (faithful m w u valid large genuine proper).mono (fun w' m₂ coerced => ?_)
    fun _ _ fault => ⟨fault.1, fault.2.weaken⟩
  have evolves := coerced.evolves
  obtain ⟨r₂, found₂, own₂, _⟩ := coerced.own valid state.found named own
  obtain ⟨r', state₂, layout₂, _⟩ := state.evolves evolves
  cases state₂.found.symm.trans found₂
  have old := evolves.valid.records found₂
  obtain ⟨_, l, _, layout, _⟩ := old.migrating_object state₂.migrating
  have free := state₂.free p List.mem_cons_self
  have count : r.fixedSize = l.table.entries.length := by
    simp [Record.fixedSize, ← layout₂, layout, Layout.size]
  have room₂ : r.fixedSize < r₂.slots.size := by
    obtain ⟨r', found', record⟩ := evolves.records state.found
    cases found'.symm.trans found₂
    rw [record.body.slots_size]
    exact room
  simp only [ends_bind]
  rw [ends_setSlot_install evolves.valid state₂ layout room₂, ends_updateRecord, Heap.update_update]
  let moved : Record → Record :=
    (fun r => (r.dynErase (m.types.names.name p.id)).1) ∘ extend l p.id r.fixedSize (.here w')
  have erased : moved r₂ = { extend l p.id r.fixedSize (.here w') r₂ with dyn := (moved r₂).dyn } :=
    Record.dynErase_eq
  have placed : ∀ d, (extend l p.id r.fixedSize (.here w') r₂).dyn = some d → d.Placed := by
    rw [extend_eq]
    exact old.store
  have get := Record.dynGet?_dynErase placed (m.types.names.name p.id)
  have extended : Extended m₂ r₂ p.id r.fixedSize (.here w') (moved r₂) := {
    migrating := state₂.migrating
    named := evolves.types ▸ named
    layout := by
      refine ⟨l, layout, count, ?_, by rw [erased, extend_eq]⟩
      rwa [Record.slotOf?, layout, Option.bind_some] at free
    room := room₂
    here := fun _ same => by
      cases same
      exact coerced.genuine genuine
    forward := fun _ _ same => by cases same
    store := Record.dynErase_placed placed _
    hasStore := (Record.dynErase_isSome _).trans (by rw [extend_eq])
    others := fun name other => by
      rw [evolves.types] at other
      refine (get name).trans ?_
      rw [if_neg other, extend_eq]
      rfl
    gone := by
      rw [evolves.types]
      exact (get _).trans (if_pos rfl) }
  have state₃ := state₂.extended extended others
  have own₃ := extended.own?_new evolves.valid found₂ .here
  have step : m₂.Evolves base (some ref) _ :=
    extended.evolves evolves.valid found₂ (.inl ⟨w, w', own₂, coerced.kept, own₃⟩)
  refine ⟨evolves.weaken.trans step, ⟨_, state₃⟩, fun trusted => ?_⟩
  obtain ⟨settled, fits⟩ := coerced.sound trusted
  refine ⟨settled.trans evolves.valid step (.update found₂ (state₃.tag.trans state₂.tag.symm)) fun x here => ?_,
    w', ?_, u, type, fits.evolves step⟩
  · cases here
    exact ⟨r, state.found, by rw [state.tag]; rfl⟩
  · exact (step.valid.lookup?_eq state₃.found p.id).trans (by rw [own₃]; rfl)

theorem ends_migrateProp (faithful : Faithful base recur) (valid : m.Valid) (large : base ≤ m.heap.size)
    (state : Migrating m ref t (p :: pending) r) (others : ∀ x ∈ pending, x.id ≠ p.id)
    (member : p ∈ (m.types.graph.node t).props) :
    Ends (migrateProp recur ref p) m (fun _ m' => Provided base m ref t p pending m')
      fun f m' => f.Raised m' ∧ m.Evolves base (some ref) m' := by
  have proper := ((valid.records state.found).tagged t state.tag).1
  have named := proper.named p member
  obtain ⟨u, type, properU⟩ := proper.property member
  simp only [migrateProp, ends_bind, ends_propName named, ends_recordAt state.found]
  cases present : r.dynGet? (m.types.names.name p.id) with
  | some w => exact ends_move faithful valid large state others named type properU present
  | none =>
    have missing : m.own? r p.id = none :=
      (Machine.own?_of_store (state.free p List.mem_cons_self)).trans present
    have absent (v : Violation) : (Fault.violation v).Raised { m with dirty := true } ∧
        m.Evolves base (some ref) { m with dirty := true } :=
      fault_violation (.refl valid) v
    dsimp only
    split
    next readOnly =>
      obtain ⟨refs, chain⟩ := valid.chains state.found
      cases chain with
      | @cons _ _ rest at_ref links =>
        cases at_ref.symm.trans state.found
        simp only [ends_bind, ends_get, links.chain_eq]
        refine (ends_inherit faithful valid large state others member readOnly named type properU missing links
          fun free m' evolves => evolves.lookup?_skip named state.found missing).mono (fun found m' outcome => ?_)
          fun _ _ fault => fault
        cases found with
        | true => exact outcome
        | false =>
          cases outcome
          exact absent _
    next => exact absent _

/-- What holds while an object is given its layout: some properties have been taken care of and the
others are pending. -/
structure Underway (base : Nat) (m : Machine) (ref : Ref) (t : TypeId) (pending : List Property) (m' : Machine) :
    Prop where
  evolves : m.Evolves base (some ref) m'
  migrating : ∃ r, Migrating m' ref t pending r
  sound : m.Trusted → m.Settled m' ∧ ∀ p ∈ (m.types.graph.node t).props, p ∈ pending ∨
    ∃ v, m'.lookup? ref p.id = some v ∧ ∃ u ∈ p.type, m'.Fits v u

variable {start m' : Machine}

/-- One more property. -/
theorem Underway.step (faithful : Faithful base recur) (valid : start.Valid) (large : base ≤ start.heap.size)
    (underway : Underway base start ref t (p :: pending) m) (distinct : ∀ x ∈ pending, x.id ≠ p.id)
    (opened : ∃ r, start.heap.get? ref = some r ∧ r.tag.isSome)
    (member : p ∈ (start.types.graph.node t).props) :
    Ends (migrateProp recur ref p) m (fun _ m' => Underway base start ref t pending m')
      fun f m' => f.Raised m' ∧ start.Evolves base (some ref) m' := by
  obtain ⟨evolves, ⟨r, state⟩, sound⟩ := underway
  refine (ends_migrateProp faithful evolves.valid (large.trans evolves.size) state distinct
    (evolves.types ▸ member)).mono (fun _ m' provided => ?_) fun _ _ fault => ⟨fault.1, evolves.trans fault.2⟩
  refine ⟨evolves.trans provided.evolves, provided.migrating, fun trusted => ?_⟩
  obtain ⟨settled, done⟩ := sound trusted
  have trusted' : m.Trusted := trusted.evolves valid evolves settled fun x rx here found => by
    cases here
    cases found.symm.trans state.found
    exact state.migrating
  obtain ⟨settled', here⟩ := provided.sound trusted'
  refine ⟨settled.trans evolves.valid provided.evolves settled' fun x here => ?_, fun q declared => ?_⟩
  · cases here
    exact opened
  · rcases done q declared with waiting | ⟨v, present, u, type, fits⟩
    · rcases List.mem_cons.1 waiting with rfl | later
      · exact .inr here
      · exact .inl later
    · have proper := ((evolves.valid.records state.found).tagged t state.tag).1
      have named := proper.named q (evolves.types ▸ declared)
      obtain ⟨v', present', fits'⟩ := fits.lookup? evolves.valid provided.evolves named state.found present
      exact .inr ⟨v', present', u, type, fits'⟩

/-- All the properties of a list. -/
theorem ends_migrateProps (faithful : Faithful base recur) (valid : start.Valid) (large : base ≤ start.heap.size)
    {now : List Property} (underway : Underway base start ref t (now ++ pending) m)
    (distinct : ((now ++ pending).map (·.id)).Nodup) (opened : ∃ r, start.heap.get? ref = some r ∧ r.tag.isSome)
    (members : ∀ p ∈ now, p ∈ (start.types.graph.node t).props) :
    Ends (now.forM (migrateProp recur ref)) m (fun _ m' => Underway base start ref t pending m')
      fun f m' => f.Raised m' ∧ start.Evolves base (some ref) m' := by
  let inv (rest : List Property) (m' : Machine) : Prop :=
    Underway base start ref t (rest ++ pending) m' ∧ ((rest ++ pending).map (·.id)).Nodup ∧
      ∀ p ∈ rest, p ∈ (start.types.graph.node t).props
  refine (ends_forM inv now (fun p rest m' ⟨underway, distinct, members⟩ => ?_) ⟨underway, distinct, members⟩).mono
    (fun _ _ done => done.1) fun _ _ fault => fault
  obtain ⟨fresh, distinct⟩ := List.nodup_cons.1 distinct
  refine (underway.step faithful valid large (fun x later same => fresh ?_) opened
    (members p List.mem_cons_self)).mono
    (fun _ m'' underway => ⟨underway, distinct, fun x later => members x (.tail _ later)⟩) fun _ _ fault => fault
  exact List.mem_map.2 ⟨x, later, same⟩

structure Opened (base : Nat) (m : Machine) (ref : Ref) (t : TypeId) (start : Machine) : Prop where
  evolves : m.Evolves base (some ref) start
  untagged : ∃ r, m.heap.get? ref = some r ∧ r.tag = none
  migrating : ∃ r, start.heap.get? ref = some r ∧ r.tag = some t ∧ r.migrating = true ∧ ∀ id, r.slotOf? id = none
  others : ∀ x, x ≠ ref → start.heap.get? x = m.heap.get? x

namespace Opened

theorem of_tag {props : List Property} (valid : m.Valid) (found : m.heap.get? ref = some r) (untagged : r.tag = none)
    (kind : r.kind = .object) (proper : m.types.Proper t) (shape : m.types.graph.node t = .object props) :
    Opened base m ref t { m with heap := m.heap.update ref fun r =>
      { r with tag := some t, layout := some ⟨.migrated ref, Layout.empty⟩, migrating := true } } where
  evolves := .opened valid found untagged kind proper shape
  untagged := ⟨r, found, untagged⟩
  migrating := ⟨_, Heap.get?_update_same found _, rfl, rfl, fun _ => rfl⟩
  others _ other := Heap.get?_update_ne other _

theorem close (opened : Opened base m ref t start) (evolves : start.Evolves base (some ref) m') :
    m.Evolves base none m' := by
  obtain ⟨r, found, untagged⟩ := opened.untagged
  exact (opened.evolves.trans evolves).close found untagged

theorem trusted (opened : Opened base m ref t start) (valid : m.Valid) (trusted : m.Trusted) : start.Trusted := by
  refine trusted.tagging valid opened.evolves opened.others fun r' _ _ found' _ _ => ?_
  obtain ⟨r, found, _, migrating, _⟩ := opened.migrating
  cases found.symm.trans found'
  exact migrating

/-- Before the first property. -/
theorem underway {props : List Property} (opened : Opened base m ref t start)
    (all : ∀ p ∈ (start.types.graph.node t).props, p ∈ props) : Underway base start ref t props start where
  evolves := .refl opened.evolves.valid
  migrating := by
    obtain ⟨r, found, tag, migrating, empty⟩ := opened.migrating
    exact ⟨r, found, tag, migrating, fun p _ => empty p.id⟩
  sound _ := ⟨.refl, fun p member => .inl (all p member)⟩

/-- After the last property the layout is frozen, and the object upholds its type. -/
theorem finish {props : List Property} {f : Record → Record} (opened : Opened base m ref t start) (valid : m.Valid)
    (shape : m.types.graph.node t = .object props) (underway : Underway base start ref t [] m')
    (made : ∀ r, f r =
      { r with migrating := false, layout := r.layout.map fun l => { l with table := l.table.publish } }) :
    m.Evolves base none { m' with heap := m'.heap.update ref f } ∧
      (∃ r', (m'.heap.update ref f).get? ref = some r' ∧ r'.tag = some t) ∧
      (m.Trusted → m.Settled { m' with heap := m'.heap.update ref f }) := by
  obtain ⟨evolves, ⟨r, state⟩, sound⟩ := underway
  have step : m'.Evolves base (some ref) { m' with heap := m'.heap.update ref f } :=
    .closed evolves.valid state.found (made r)
  have found' := Heap.get?_update_same state.found f
  have tag' : (f r).tag = some t := by
    rw [made]
    exact state.tag
  refine ⟨opened.close (evolves.trans step), ⟨f r, found', tag'⟩, fun trusted => ?_⟩
  obtain ⟨settled, done⟩ := sound (opened.trusted valid trusted)
  have opened_start : ∃ r, start.heap.get? ref = some r ∧ r.tag.isSome := by
    obtain ⟨r, found, tag, _⟩ := opened.migrating
    exact ⟨r, found, by rw [tag]; rfl⟩
  have settled' : start.Settled { m' with heap := m'.heap.update ref f } :=
    settled.trans evolves.valid step (.update state.found (tag'.trans state.tag.symm)) fun _ here => by
      cases here
      exact opened_start
  refine settled'.tagging opened.others fun r' u present tag => ?_
  cases found'.symm.trans present
  cases tag'.symm.trans tag
  refine ⟨by rw [made], ?_⟩
  have shape' : m'.types.graph.node t = .object props := by rw [evolves.types, opened.evolves.types, shape]
  have proper := ((evolves.valid.records state.found).tagged t state.tag).1
  rw [opened.evolves.types, shape] at done
  rw [Machine.Upholds, show ({ m' with heap := _ } : Machine).types.graph.node t = _ from shape']
  intro p member
  obtain ⟨v, here, u, type, fits⟩ := (done p member).resolve_left List.not_mem_nil
  have named := proper.named p (by rw [shape']; exact member)
  obtain ⟨v', here', fits'⟩ := fits.lookup? evolves.valid step named state.found here
  exact ⟨v', here', u, type, fits'⟩

end Opened

/-- An untyped object is given the layout of an object type. -/
theorem ends_migrate (faithful : Faithful base recur) (valid : m.Valid) (large : base ≤ m.heap.size)
    {props : List Property} (found : m.heap.get? ref = some r) (untagged : r.tag = none) (kind : r.kind = .object)
    (proper : m.types.Proper t) (shape : m.types.graph.node t = .object props) :
    Ends (migrate recur ref t) m
      (fun _ m' => m.Evolves base none m' ∧ (∃ r', m'.heap.get? ref = some r' ∧ r'.tag = some t) ∧
        (m.Trusted → m.Settled m'))
      fun f m' => f.Raised m' ∧ m.Evolves base none m' := by
  have formed := proper.wellFormed.node
  rw [shape] at formed
  have sorted := Node.readWrite_append_readOnly_perm props
  have opened : Opened base m ref t _ := .of_tag valid found untagged kind proper shape
  simp only [migrate, ends_bind, ends_updateRecord, ends_node, publish, shape]
  generalize ({ m with heap := m.heap.update ref _ } : Machine) = start at opened ⊢
  have valid' := opened.evolves.valid
  have large' := large.trans opened.evolves.size
  have shape' : start.types.graph.node t = .object props := opened.evolves.types ▸ shape
  have tagged : ∃ r, start.heap.get? ref = some r ∧ r.tag.isSome := by
    obtain ⟨r, found, tag, _⟩ := opened.migrating
    exact ⟨r, found, by rw [tag]; rfl⟩
  have begins : Underway base start ref t ((Node.object props).readWrite ++ (Node.object props).readOnly) start :=
    opened.underway fun p member => sorted.mem_iff.2 (by rwa [shape'] at member)
  have distinct := (sorted.map (·.id)).nodup_iff.2 formed.1
  refine (ends_migrateProps faithful valid' large' begins distinct tagged fun p member => ?_).mono
    (fun _ m₂ written => ?_) fun _ _ fault => ⟨fault.1, opened.close fault.2⟩
  · rw [shape']
    exact sorted.mem_iff.1 (List.mem_append_left _ member)
  rw [List.map_append] at distinct
  rw [← List.append_nil (Node.object props).readOnly] at written
  refine (ends_migrateProps faithful valid' large' written
    (by rw [List.append_nil]; exact (List.nodup_append.1 distinct).2.1) tagged fun p member => ?_).mono
    (fun _ m₃ complete => ?_) fun _ _ fault => ⟨fault.1, opened.close fault.2⟩
  · rw [shape']
    exact sorted.mem_iff.1 (List.mem_append_right _ member)
  rw [Heap.update_update]
  exact opened.finish valid shape complete fun _ => rfl

end Run

end Gradual
