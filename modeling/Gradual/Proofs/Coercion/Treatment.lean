import Gradual.Proofs.Coercion.Room

/-!
What a migration does with one property: it is moved, shared or left where it was found (`Record.Treated`). Coercions
of values in between leave the object's layout and keys as they are (`Record.Steady`).
-/
namespace Gradual

namespace Record

variable {r r' : Record}

def fixed (r : Record) : List (PropId × Nat) := (r.layout.map (·.table.entries)).getD []

theorem fixedSize_eq (r : Record) : r.fixedSize = r.fixed.length := by
  unfold fixedSize fixed
  cases r.layout <;> rfl

theorem slotOf?_eq (r : Record) (id : PropId) : r.slotOf? id = r.fixed.lookup id := by
  unfold slotOf? fixed
  cases r.layout <;> rfl

def Has (names : NameTable) (r : Record) (id : PropId) : Prop :=
  (r.slotOf? id).isSome ∨ (r.dynGet? (names.name id)).isSome

structure Steady (r r' : Record) : Prop where
  layout : r'.layout = r.layout
  proto : r'.proto = r.proto
  size : r'.slots.size = r.slots.size
  keys : ∀ name, (r'.dynGet? name).isSome = (r.dynGet? name).isSome

theorem Steady.refl (r : Record) : r.Steady r := ⟨rfl, rfl, rfl, fun _ => rfl⟩

theorem Steady.trans {r'' : Record} (first : r.Steady r') (second : r'.Steady r'') : r.Steady r'' :=
  ⟨second.layout.trans first.layout, second.proto.trans first.proto, second.size.trans first.size,
    fun name => (second.keys name).trans (first.keys name)⟩

theorem Steady.fixed (steady : r.Steady r') : r'.fixed = r.fixed := by
  unfold Record.fixed
  rw [steady.layout]

theorem absent_of_isSome_eq {name : String} (same : (r'.dynGet? name).isSome = (r.dynGet? name).isSome)
    (absent : r.dynGet? name = none) : r'.dynGet? name = none := by
  rw [absent] at same
  exact Option.not_isSome_iff_eq_none.1 (by simp [same])

/-- What a migration does with one property: it is moved from the store into the next slot, shared with the prototype in
the next slot, or left on one of `refs`. -/
inductive Treated (m' : Machine) (refs : List Ref) (p : Property) (r r' : Record) : Prop where
  | moved {w : Word} (present : (r.dynGet? (m'.types.names.name p.id)).isSome)
      (fixed : r'.fixed = r.fixed ++ [(p.id, r.fixed.length)]) (slot : r'.slots[r.fixed.length]? = some (.here w))
      (keys : ∀ name, (r'.dynGet? name).isSome ↔ (r.dynGet? name).isSome ∧ name ≠ m'.types.names.name p.id)
  | shared {q : Ref} {rq : Record} {j : Nat} (readOnly : p.readOnly = true)
      (absent : r.dynGet? (m'.types.names.name p.id) = none) (proto : r.proto = some q)
      (found : m'.heap.get? q = some rq) (entry : rq.slotOf? p.id = some j)
      (fixed : r'.fixed = r.fixed ++ [(p.id, r.fixed.length)])
      (slot : r'.slots[r.fixed.length]? = some (.forward q j))
      (keys : ∀ name, (r'.dynGet? name).isSome = (r.dynGet? name).isSome)
  | left {x : Ref} {rx : Record} (readOnly : p.readOnly = true)
      (absent : r.dynGet? (m'.types.names.name p.id) = none) (above : x ∈ refs) (found : m'.heap.get? x = some rx)
      (has : rx.Has m'.types.names p.id) (steady : r.Steady r')

theorem Steady.treated {m' : Machine} {refs : List Ref} {p : Property} {r'' : Record} (steady : r.Steady r')
    (treated : r'.Treated m' refs p r'') : r.Treated m' refs p r'' := by
  have back {name : String} : r'.dynGet? name = none → r.dynGet? name = none :=
    absent_of_isSome_eq (steady.keys name).symm
  cases treated with
  | moved present fixed slot keys =>
    rw [steady.fixed] at fixed slot
    rw [steady.keys] at present
    exact .moved present fixed slot fun name => by rw [keys, steady.keys]
  | shared readOnly absent proto found entry fixed slot keys =>
    rw [steady.fixed] at fixed slot
    exact .shared readOnly (back absent) (steady.proto.symm.trans proto) found entry fixed slot fun name =>
      (keys name).trans (steady.keys name)
  | left readOnly absent above found has steady' =>
    exact .left readOnly (back absent) above found has (steady.trans steady')

end Record

namespace Run

variable {α : Type} {base : Nat} {s : Search} {recur recur' : Recur} {m m' : Machine} {ref : Ref} {r : Record}
  {t u : TypeId} {p : Property} {pending : List Property}

theorem Tracks.tends {free : Option Ref} {act act' : Run α} (tracks : Tracks s free act act' m) :
    Ends act m (fun _ m' => m.Tends free m') fun _ m' => m.Tends free m' :=
  tracks.mono (fun _ _ done => done.1) fun _ _ fault => fault.1

/-- Coercions of parts leave the object that is being migrated steady. -/
theorem Migrating.steady (state : Migrating m ref t pending r) (evolves : m.Evolves base none m')
    (tends : m.Tends none m') : ∃ r', Migrating m' ref t pending r' ∧ r.Steady r' := by
  obtain ⟨r', state', layout, proto⟩ := state.evolves evolves
  obtain ⟨r₁, found₁, record⟩ := evolves.records state.found
  cases state'.found.symm.trans found₁
  obtain ⟨r₂, found₂, here⟩ := tends.records state.found
  cases state'.found.symm.trans found₂
  have tagged : r.tag.isSome := by rw [state.tag]; rfl
  refine ⟨r', state', layout, proto, record.body.slots_size, fun name => ?_⟩
  exact Bool.eq_iff_iff.2 ⟨here.only tagged state.migrating name, here.keys tagged nofun name⟩

theorem extend_fixed {l : FixedLayout} (layout : r.layout = some l) (id : PropId) (n : Nat) (slot : Slot) :
    (extend l id n slot r).fixed = r.fixed ++ [(id, n)] := by
  simp [Record.fixed, extend, layout]

theorem extend_slot {n : Nat} (room : n < r.slots.size) (l : FixedLayout) (id : PropId) (slot : Slot) :
    (extend l id n slot r).slots[n]? = some slot := by
  have slots : (extend l id n slot r).slots = r.slots.setIfInBounds n slot := by
    rw [← Record.setSlot_slots]
    rfl
  rw [slots, Machine.Evolves.getElem?_set room, if_pos rfl]

theorem extend_dynGet? (l : FixedLayout) (id : PropId) (n : Nat) (slot : Slot) (name : String) :
    (extend l id n slot r).dynGet? name = r.dynGet? name := by
  rw [extend_eq]
  rfl

def Holds (m : Machine) (ref : Ref) (r : Record) : Prop := ∃ r', m.heap.get? ref = some r' ∧ r.Steady r'

theorem Holds.steady {r₁ : Record} (holds : Holds m ref r₁) (steady : r.Steady r₁) : Holds m ref r := by
  obtain ⟨r', found, steady'⟩ := holds
  exact ⟨r', found, steady.trans steady'⟩

section

variable (faithful : Faithful base recur) (parts : ∀ w t m, m.Orderly → Tracks s none (recur w t) (recur' w t) m)
  (valid : m.Valid) (large : base ≤ m.heap.size) (state : Migrating m ref t (p :: pending) r)
include faithful parts valid large state

theorem Migrating.ends_part {w : Word} (genuine : m.heap.Genuine w) (proper : m.types.Proper u) :
    Ends (recur w (some u)) m
      (fun _ m' => m.Evolves base none m' ∧ ∃ r', Migrating m' ref t (p :: pending) r' ∧ r.Steady r')
      fun _ m' => Holds m' ref r := by
  refine (Ends.and (faithful m w u valid large genuine proper) (parts w (some u) m valid.orderly).tends).mono ?_ ?_
  · rintro w' m' ⟨coerced, tends⟩
    exact ⟨coerced.evolves, state.steady coerced.evolves tends⟩
  · rintro f m' ⟨⟨_, evolves⟩, tends⟩
    obtain ⟨r', state', steady⟩ := state.steady evolves tends
    exact ⟨r', state'.found, steady⟩

/-- A property of the object's own is moved. -/
theorem treats_move (type : p.type = some u) (proper : m.types.Proper u) {w : Word}
    (present : r.dynGet? (m.types.names.name p.id) = some w) (refs : List Ref) :
    Ends (do let slot ← nextSlot ref (m.types.names.name p.id)
             let converted ← recur w p.type
             setSlot ref slot (.here converted)
             install ref p.id slot
             updateRecord ref fun r => (r.dynErase (m.types.names.name p.id)).1) m
      (fun _ m' => ∃ r', m'.heap.get? ref = some r' ∧ r.Treated m' refs p r') fun _ m' => Holds m' ref r := by
  have genuine := (valid.records state.found).entries _ w present
  rw [ends_bind]
  refine ends_nextSlot state.found (fun room => ?_) fun _ => ⟨r, state.found, .refl r⟩
  rw [ends_bind, type]
  refine (state.ends_part faithful parts valid large genuine proper).mono ?_ fun _ _ fault => fault
  rintro w' m₂ ⟨evolves, r₂, state₂, steady⟩
  have old := evolves.valid.records state₂.found
  obtain ⟨_, l, _, layout, _⟩ := old.migrating_object state₂.migrating
  have room₂ : r.fixedSize < r₂.slots.size := by rwa [steady.size]
  simp only [ends_bind]
  rw [ends_setSlot_install evolves.valid state₂ layout room₂, ends_updateRecord, Heap.update_update]
  have placed : ∀ d, (extend l p.id r.fixedSize (.here w') r₂).dyn = some d → d.Placed := by
    rw [extend_eq]
    exact old.store
  refine ⟨_, Heap.get?_update_same state₂.found _, .moved (w := w') ?_ ?_ ?_ ?_⟩
  all_goals simp only [evolves.types, Function.comp_apply]
  · rw [present]
    rfl
  · rw [Record.dynErase_eq, ← r.fixedSize_eq, ← steady.fixed]
    exact extend_fixed layout p.id r.fixedSize (.here w')
  · rw [Record.dynErase_eq, ← r.fixedSize_eq]
    exact extend_slot room₂ l p.id (.here w')
  · intro name
    rw [Record.dynGet?_dynErase placed, extend_dynGet?]
    split
    next same => simp [same]
    next other => simp [steady.keys, other]

end

section

variable (valid : m.Valid) (state : Migrating m ref t (p :: pending) r)
include valid state

/-- A slot of the nearest prototype is shared. -/
theorem treats_share {q : Ref} {rq : Record} {i : Nat} (readOnly : p.readOnly = true)
    (absent : r.dynGet? (m.types.names.name p.id) = none) (at_q : m.heap.get? q = some rq)
    (slot : rq.slotOf? p.id = some i) (done : rq.migrating = false) (proto : r.proto = some q) (refs : List Ref) :
    Ends (do let own ← nextSlot ref (m.types.names.name p.id)
             publish q
             setSlot ref own (.forward q i)
             install ref p.id own) m
      (fun _ m' => ∃ r', m'.heap.get? ref = some r' ∧ r.Treated m' refs p r') fun _ m' => Holds m' ref r := by
  obtain ⟨_, l, _, layout, _⟩ := (valid.records state.found).migrating_object state.migrating
  have different : q ≠ ref := by
    rintro rfl
    cases at_q.symm.trans state.found
    rw [state.migrating] at done
    cases done
  rw [ends_bind]
  refine ends_nextSlot state.found (fun room => ?_) fun _ => ⟨r, state.found, .refl r⟩
  rw [ends_bind, ends_publish valid at_q done, ends_bind, ends_setSlot_install valid state layout room]
  refine ⟨_, Heap.get?_update_same state.found _, .shared readOnly absent proto ?_ slot ?_ ?_ ?_⟩
  · exact (Heap.get?_update_ne different _).trans at_q
  · rw [← r.fixedSize_eq]
    exact extend_fixed layout ..
  · rw [← r.fixedSize_eq]
    exact extend_slot room ..
  · intro name
    rw [extend_dynGet?]

end

section

variable (faithful : Faithful base recur) (parts : ∀ w t m, m.Orderly → Tracks s none (recur w t) (recur' w t) m)
  (valid : m.Valid) (large : base ≤ m.heap.size) (state : Migrating m ref t (p :: pending) r)
include faithful parts valid large state

/-- A property that a prototype has in a slot is coerced there, and then shared or left. -/
theorem treats_inherit_slot (readOnly : p.readOnly = true) (named : m.types.names.name p.id ≠ "")
    (type : p.type = some u) (proper : m.types.Proper u) (absent : r.dynGet? (m.types.names.name p.id) = none) {q : Ref}
    {rq : Record} {i : Nat} (at_q : m.heap.get? q = some rq) (slot : rq.slotOf? p.id = some i) {refs : List Ref}
    (above : q ∈ refs) :
    Ends (do coerceSlot recur q i p
             let nearest := (← recordAt ref).proto = some q
             if nearest && !(← recordAt q).migrating then
               let own ← nextSlot ref (m.types.names.name p.id)
               publish q
               setSlot ref own (.forward q i)
               install ref p.id own
             return true) m
      (fun found m' => found = true ∧ ∃ r', m'.heap.get? ref = some r' ∧ r.Treated m' refs p r')
      fun _ m' => Holds m' ref r := by
  have coerced := (ends_coerceSlot faithful valid large at_q slot named type proper).and
    (tracks_coerceSlot parts valid.orderly q i p).tends
  rw [ends_bind]
  refine coerced.mono ?_ ?_
  · rintro _ m₂ ⟨⟨evolves, -⟩, tends⟩
    obtain ⟨r₂, state₂, steady⟩ := state.steady evolves tends
    obtain ⟨rq₂, at_q₂, record⟩ := evolves.records at_q
    have slot₂ := record.entry slot
    have absent₂ : r₂.dynGet? (m₂.types.names.name p.id) = none := by
      rw [evolves.types]
      exact Record.absent_of_isSome_eq (steady.keys _) absent
    simp only [ends_bind, ends_recordAt state₂.found, ends_recordAt at_q₂]
    split
    next near =>
      rw [Bool.and_eq_true, decide_eq_true_eq, Bool.not_eq_true'] at near
      have shared := treats_share evolves.valid state₂ readOnly absent₂ at_q₂ slot₂ near.2 near.1 refs
      have onward (m₃ : Machine) : (∃ r', m₃.heap.get? ref = some r' ∧ r₂.Treated m₃ refs p r') →
          true = true ∧ ∃ r', m₃.heap.get? ref = some r' ∧ r.Treated m₃ refs p r' := by
        rintro ⟨r₃, found₃, treated⟩
        exact ⟨rfl, r₃, found₃, steady.treated treated⟩
      have share := shared.mono (fun _ m₃ => onward m₃) fun _ _ fault => fault.steady steady
      rw [evolves.types] at share
      simp only [ends_bind, ends_pure] at share ⊢
      exact share
    next =>
      refine ⟨rfl, r₂, state₂.found, .left readOnly ?_ above at_q₂ ?_ steady⟩
      · rwa [evolves.types]
      · exact .inl (by rw [slot₂]; rfl)
  · rintro _ m₂ ⟨⟨_, evolves⟩, tends⟩
    obtain ⟨r₂, state₂, steady⟩ := state.steady evolves tends
    exact ⟨r₂, state₂.found, steady⟩

/-- A property in the store of a prototype is coerced and left there. -/
theorem treats_inherit_store (readOnly : p.readOnly = true) (type : p.type = some u) (proper : m.types.Proper u)
    (absent : r.dynGet? (m.types.names.name p.id) = none) {q : Ref} {rq : Record} {w : Word}
    (at_q : m.heap.get? q = some rq) (present : rq.dynGet? (m.types.names.name p.id) = some w) {refs : List Ref}
    (above : q ∈ refs) :
    Ends (do let converted ← recur w p.type
             updateRecord q (·.dynPut (m.types.names.name p.id) converted)
             return true) m
      (fun found m' => found = true ∧ ∃ r', m'.heap.get? ref = some r' ∧ r.Treated m' refs p r')
      fun _ m' => Holds m' ref r := by
  have different : ref ≠ q := by
    rintro rfl
    cases at_q.symm.trans state.found
    rw [absent] at present
    cases present
  rw [ends_bind, type]
  refine (state.ends_part faithful parts valid large ((valid.records at_q).entries _ w present) proper).mono ?_
    fun _ _ fault => fault
  rintro w' m₂ ⟨evolves, r₂, state₂, steady⟩
  obtain ⟨rq₂, at_q₂, -⟩ := evolves.records at_q
  refine ⟨rfl, r₂, (Heap.get?_update_ne different _).trans state₂.found,
    .left readOnly ?_ above (Heap.get?_update_same at_q₂ _) (.inr ?_) steady⟩
  all_goals simp only [evolves.types]
  · exact absent
  · rw [Record.dynGet?_dynPut (evolves.valid.records at_q₂).store,
      if_pos ⟨rfl, evolves.hasStore at_q at_q₂ present⟩]
    rfl

theorem treats_inherit (readOnly : p.readOnly = true) (named : m.types.names.name p.id ≠ "")
    (type : p.type = some u) (proper : m.types.Proper u) (absent : r.dynGet? (m.types.names.name p.id) = none)
    {start : Option Ref} {refs all : List Ref} (chain : m.heap.Chain start refs) (within : refs ⊆ all) :
    Ends (inherit recur ref p (m.types.names.name p.id) refs) m
      (fun found m' => if found then ∃ r', m'.heap.get? ref = some r' ∧ r.Treated m' all p r' else m' = m)
      fun _ m' => Holds m' ref r := by
  have treated {act : Run Bool} (ends : Ends act m
      (fun found m' => found = true ∧ ∃ r', m'.heap.get? ref = some r' ∧ r.Treated m' all p r')
      fun _ m' => Holds m' ref r) : Ends act m
      (fun found m' => if found then ∃ r', m'.heap.get? ref = some r' ∧ r.Treated m' all p r' else m' = m)
      fun _ m' => Holds m' ref r := by
    refine ends.mono ?_ fun _ _ fault => fault
    rintro _ m' ⟨rfl, done⟩
    exact done
  induction chain with
  | nil => simp [inherit]
  | @cons q rq rest at_q links ih =>
    have above : q ∈ all := within List.mem_cons_self
    simp only [inherit, ends_bind, ends_recordAt at_q]
    cases slot : rq.slotOf? p.id with
    | some i =>
      exact treated (treats_inherit_slot faithful parts valid large state readOnly named type proper absent at_q slot
        above)
    | none =>
      cases present : rq.dynGet? (m.types.names.name p.id) with
      | some w =>
        exact treated (treats_inherit_store faithful parts valid large state readOnly type proper absent at_q present
          above)
      | none => exact ih fun x member => within (List.mem_cons_of_mem _ member)

theorem treats_migrateProp (member : p ∈ (m.types.graph.node t).props) {refs : List Ref}
    (chain : m.heap.Chain r.proto refs) :
    Ends (migrateProp recur ref p) m (fun _ m' => ∃ r', m'.heap.get? ref = some r' ∧ r.Treated m' refs p r')
      fun _ m' => Holds m' ref r := by
  have proper := ((valid.records state.found).tagged t state.tag).1
  have named := proper.named p member
  obtain ⟨u, type, properU⟩ := proper.property member
  simp only [migrateProp, ends_bind, ends_propName named, ends_recordAt state.found]
  cases present : r.dynGet? (m.types.names.name p.id) with
  | some w => exact treats_move faithful parts valid large state type properU present refs
  | none =>
    have here : Holds { m with dirty := true } ref r := ⟨r, state.found, .refl r⟩
    dsimp only
    split
    next readOnly =>
      simp only [ends_bind, ends_get, chain.chain_eq]
      refine (treats_inherit faithful parts valid large state readOnly named type properU present chain
        (List.Subset.refl _)).mono ?_ fun _ _ fault => fault
      rintro found m' outcome
      cases found with
      | true => exact outcome
      | false =>
        cases outcome
        exact here
    next => exact here

end

end Run

end Gradual
