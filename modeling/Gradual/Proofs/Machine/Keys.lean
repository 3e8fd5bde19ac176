import Gradual.Proofs.Coercion.Preservation
import Gradual.Proofs.Machine.Chains

/-!
The names under which own properties are listed. A property with a slot is listed by the layout, any other one by the
store. A record whose properties are each in one place lists no name twice, and what is listed by the store can be
deleted.

Operations keep properties apart, with one exception. A coercion that finds an inherited property in a store coerces
its value first and writes it back then. If the value leads to the prototype itself, the property has a slot there by
now, and is put back into the store beside it.
-/
namespace Gradual

namespace Record

variable {names : NameTable} {r : Record} {name : String}

def slotNames (names : NameTable) (r : Record) : List String :=
  ((r.layout.map (·.table.entries)).getD []).map fun e => names.name e.1

def storeNames (r : Record) : List String := (r.dyn.map (·.keys)).getD []

theorem mem_storeNames (orderly : r.Orderly) : name ∈ r.storeNames ↔ (r.dynGet? name).isSome := by
  unfold storeNames dynGet?
  cases store : r.dyn with
  | none => simp
  | some d => exact (orderly.store d store).mem_keys

theorem mem_layout_iff {id : PropId} :
    id ∈ ((r.layout.map (·.table.entries)).getD []).map (·.1) ↔ (r.slotOf? id).isSome := by
  unfold slotOf?
  cases r.layout with
  | none => simp
  | some l =>
    rw [Option.bind_some, ← Option.ne_none_iff_isSome, ne_eq, Layout.slot?_eq_none, not_not]
    rfl

theorem mem_slotNames : name ∈ r.slotNames names ↔ ∃ id, (r.slotOf? id).isSome ∧ names.name id = name := by
  have ids : r.slotNames names = (((r.layout.map (·.table.entries)).getD []).map (·.1)).map names.name := by
    rw [slotNames, List.map_map]
    rfl
  simp only [ids, List.mem_map (f := names.name), mem_layout_iff]

/-- No name is listed twice if no property is in two places. -/
theorem disjoint_iff (orderly : r.Orderly) :
    (r.slotNames names).Disjoint r.storeNames ↔ ∀ id, ¬ r.Doubled names id := by
  constructor
  · rintro disjoint id ⟨slot, key⟩
    exact disjoint (mem_slotNames.2 ⟨id, slot, rfl⟩) ((mem_storeNames orderly).2 key)
  · intro apart name listed stored
    obtain ⟨id, slot, rfl⟩ := mem_slotNames.1 listed
    exact apart id ⟨slot, (mem_storeNames orderly).1 stored⟩

theorem storeNames_nodup (orderly : r.Orderly) : r.storeNames.Nodup := by
  unfold storeNames
  cases store : r.dyn with
  | none => exact List.nodup_nil
  | some d => exact (orderly.store d store).keys_nodup

theorem dynErase_found (name : String) : (r.dynErase name).2 = (r.dynGet? name).isSome := by
  unfold dynErase dynGet?
  cases r.dyn with
  | none => rfl
  | some d =>
    simp only [PropertyStore.erase, HashStore.erase, Option.bind_some]
    split
    next present => exact (HashStore.contains_iff.1 present).symm
    next missing =>
      rw [HashStore.contains_iff] at missing
      exact (Bool.eq_false_iff.2 missing).symm

end Record

namespace Machine

variable {m m' : Machine} {ref : Ref} {r : Record} {id : PropId}

/-- Every own property is in one place. -/
def Apart (m : Machine) : Prop :=
  ∀ ref r, m.heap.get? ref = some r → (r.slotNames m.types.names).Disjoint r.storeNames

theorem Orderly.apart_iff (orderly : m.Orderly) :
    m.Apart ↔ ∀ ref r id, m.heap.get? ref = some r → ¬ r.Doubled m.types.names id := by
  constructor
  · intro apart ref r id found
    exact (Record.disjoint_iff (orderly.records found)).1 (apart ref r found) id
  · intro apart ref r found
    exact (Record.disjoint_iff (orderly.records found)).2 fun id => apart ref r id found

theorem Clean.apart (clean : m.Clean m') (orderly : m.Orderly) (orderly' : m'.Orderly) (types : m'.types = m.types)
    (apart : m.Apart) : m'.Apart := by
  rw [orderly'.apart_iff, types]
  intro ref r' id found doubled
  obtain ⟨r, present, doubled⟩ := clean ref r' id found doubled
  exact orderly.apart_iff.1 apart ref r id present doubled

theorem Displaced.not_apart (displaced : m.Displaced) (orderly : m.Orderly) : ¬ m.Apart := by
  intro apart
  obtain ⟨ref, r, id, found, _, _, doubled⟩ := displaced
  exact orderly.apart_iff.1 apart ref r id found doubled

/-- A name is listed by the layout exactly if its property has a slot. -/
theorem Valid.mem_slotNames_iff (valid : m.Valid) (named : m.types.names.name id ≠ "") :
    m.types.names.name id ∈ r.slotNames m.types.names ↔ (r.slotOf? id).isSome := by
  rw [Record.mem_slotNames]
  constructor
  · rintro ⟨id', slot, same⟩
    rwa [NameTable.name_inj valid.names named same.symm]
  · intro slot
    exact ⟨id, slot, rfl⟩

theorem Valid.slotNames_nodup (valid : m.Valid) (found : m.heap.get? ref = some r) :
    (r.slotNames m.types.names).Nodup := by
  have record := valid.records found
  unfold Record.slotNames
  cases layout : r.layout with
  | none => exact List.nodup_nil
  | some l =>
    have ids := (record.layout l layout).ids
    have named {id : PropId} (member : id ∈ l.table.entries.map (·.1)) : m.types.names.name id ≠ "" := by
      obtain ⟨i, slot⟩ := Option.isSome_iff_exists.1 (Record.mem_layout_iff.1 (by rw [layout]; exact member))
      exact record.named slot
    change (l.table.entries.map fun e => m.types.names.name e.1).Nodup
    rw [show (fun e : PropId × Nat => m.types.names.name e.1) = m.types.names.name ∘ (·.1) from rfl, ← List.map_map]
    refine (List.nodup_map_iff_inj_on ids).2 fun x hx y _ same => ?_
    exact NameTable.name_inj valid.names (named hx) same

/-- A property is an own one exactly if its name is listed. -/
theorem Valid.own?_isSome (valid : m.Valid) (found : m.heap.get? ref = some r) (named : m.types.names.name id ≠ "") :
    (m.own? r id).isSome = decide (m.types.names.name id ∈ r.slotNames m.types.names ++ r.storeNames) := by
  rw [Bool.eq_iff_iff, decide_eq_true_iff, List.mem_append, valid.mem_slotNames_iff named,
    Record.mem_storeNames (valid.orderly.records found)]
  cases slot : r.slotOf? id with
  | some i =>
    obtain ⟨_, w, _, _, own⟩ := valid.own?_of_slot found slot
    simp [own]
  | none => simp [own?_of_store slot]

end Machine

namespace Run

variable {α β : Type} {m : Machine} {obj w : Word} {ref : Ref} {r : Record} {id : PropId}

theorem mapM_propName {ids : List PropId} (named : ∀ id ∈ ids, m.types.names.name id ≠ "") :
    ids.mapM propName m = .ok (ids.map m.types.names.name) m := by
  induction ids with
  | nil => rfl
  | cons id ids ih =>
    obtain ⟨here, rest⟩ := List.forall_mem_cons.1 named
    rw [List.mapM_cons, propName_bind here]
    simp only [Bind.bind, EStateM.bind, ih rest]
    rfl

theorem ownKeys_eq (known : obj.decode? = some (.object ref) ∨ obj.decode? = some (.closure ref))
    (found : m.heap.get? ref = some r) (named : ∀ id, (r.slotOf? id).isSome → m.types.names.name id ≠ "") :
    ownKeys obj m = .ok (r.slotNames m.types.names, r.storeNames) m := by
  rw [ownKeys, propRecord_bind _ known found]
  dsimp only
  have listed := mapM_propName (m := m) fun id member => named id (Record.mem_layout_iff.1 member)
  simp only [Bind.bind, EStateM.bind, listed]
  rw [Record.slotNames, List.map_map]
  rfl

theorem deleteProp_of_slot (known : obj.decode? = some (.object ref) ∨ obj.decode? = some (.closure ref))
    (found : m.heap.get? ref = some r) (slot : (r.slotOf? id).isSome) : deleteProp obj id m = .ok false m := by
  rw [deleteProp, propRecord_bind _ known found]
  simp only [slot, Bool.or_true, if_true]
  rfl

/-- Without a slot, the property is erased from the store if it is there. -/
theorem deleteProp_of_store (known : obj.decode? = some (.object ref) ∨ obj.decode? = some (.closure ref))
    (found : m.heap.get? ref = some r) (free : r.slotOf? id = none) (named : m.types.names.name id ≠ "") :
    deleteProp obj id m = .ok (r.dynGet? (m.types.names.name id)).isSome
      { m with heap := m.heap.update ref fun r => (r.dynErase (m.types.names.name id)).1 } := by
  rw [deleteProp, propRecord_bind _ known found]
  cases store : r.dyn with
  | none =>
    have erased : (r.dynErase (m.types.names.name id)).1 = r := by simp [Record.dynErase, store]
    rw [Heap.update_eq_self found erased]
    simp only [store, Record.dynGet?, Option.isNone_none, Bool.true_or, if_true]
    rfl
  | some d =>
    simp only [store, free, Option.isNone_some, Option.isSome_none, Bool.or_self, Bool.false_eq_true, if_false]
    rw [propName_bind named, ← Record.dynErase_found]
    rw [Heap.update_congr found (g := fun _ => (r.dynErase (m.types.names.name id)).1) rfl]
    rfl

/-- However the action ends, no property is in two places that was not so before. -/
def Cleans (act : Run α) (m : Machine) : Prop :=
  Ends act m (fun _ m' => m'.types = m.types ∧ m.Clean m') fun _ m' => m'.types = m.types ∧ m.Clean m'

namespace Cleans

variable {act : Run α} {next : α → Run β}

theorem of_looks {ok : α → Prop} (looks : Looks act m ok) : Cleans act m := by
  refine Ends.mono looks ?_ fun _ _ fault => ⟨fault.2, .of_eq fault.1⟩
  rintro a _ ⟨rfl, _⟩
  exact ⟨rfl, .of_eq rfl⟩

theorem pure (a : α) : Cleans (pure a) m := ⟨rfl, .of_eq rfl⟩

theorem stop (fault : Looks act m fun _ => False) : Cleans act m := of_looks fault

theorem look {mid : α → Prop} (first : Looks act m mid) (rest : ∀ a, mid a → Cleans (next a) m) :
    Cleans (act >>= next) m := by
  refine (ends_bind ..).2 (Ends.mono first ?_ fun _ _ fault => ⟨fault.2, .of_eq fault.1⟩)
  rintro a _ ⟨rfl, here⟩
  exact rest a here

theorem halt (fault : Looks act m fun _ => False) : Cleans (act >>= next) m := look fault fun _ none => none.elim

theorem get {next : Machine → Run β} (rest : Cleans (next m) m) : Cleans (get >>= next) m := rest

theorem guard {c : Prop} [Decidable c] {act : Run PUnit} {next : PUnit → Run β} (fault : Looks act m fun _ => False)
    (rest : ¬c → Cleans (next ⟨⟩) m) : Cleans (if c then act >>= next else next ⟨⟩) m := by
  split
  · exact halt fault
  next passed => exact rest passed

theorem bind (first : Cleans act m) (rest : ∀ a m', Cleans (next a) m') : Cleans (act >>= next) m := by
  refine (ends_bind ..).2 (Ends.mono first ?_ fun _ _ fault => fault)
  rintro a m' ⟨types, clean⟩
  have onward {m'' : Machine} (types' : m''.types = m'.types) (clean' : m'.Clean m'') :
      m''.types = m.types ∧ m.Clean m'' := ⟨types'.trans types, clean.trans clean' types⟩
  exact Ends.mono (rest a m') (fun _ _ done => onward done.1 done.2) fun _ _ fault => onward fault.1 fault.2

theorem apart (cleans : Cleans act m) (valid : m.Valid) (valid' : (act.after m).Valid) (apart : m.Apart) :
    (act.after m).Apart := by
  have ended := ends_after cleans
  unfold Ends at ended
  split at ended
  · obtain ⟨rfl, types, clean⟩ := ended
    exact clean.apart valid.orderly valid'.orderly types apart
  · obtain ⟨rfl, types, clean⟩ := ended
    exact clean.apart valid.orderly valid'.orderly types apart

end Cleans

theorem cleans_allocate (empty : r.dyn = none) : Cleans (allocate r) m := by
  rw [Cleans, ends_allocate]
  split
  · exact ⟨rfl, .add empty⟩
  · exact ⟨rfl, .of_eq rfl⟩

theorem cleans_update {f : Record → Record}
    (here : ∀ r, m.heap.get? ref = some r → ∀ id, (f r).Doubled m.types.names id → r.Doubled m.types.names id) :
    Cleans (updateRecord ref f) m := ⟨rfl, .update here⟩

/-- Layout and store are not touched. -/
theorem cleans_write {f : Record → Record} (layout : ∀ r, (f r).layout = r.layout) (dyn : ∀ r, (f r).dyn = r.dyn) :
    Cleans (updateRecord ref f) m := by
  apply cleans_update
  rintro r _ id ⟨slot, key⟩
  rw [Record.slotOf?, layout] at slot
  rw [Record.dynGet?, dyn] at key
  exact ⟨slot, key⟩

theorem cleans_setElems (ref : Ref) (d : Deque) : Cleans (setElems ref d) m := by
  apply cleans_write
  · intro r
    rw [Record.setElems_eq]
  · intro r
    rw [Record.setElems_eq]

theorem cleans_settle (ref : Ref) (result : Option Deque.Refusal × Deque) : Cleans (settle ref result) m :=
  .bind (cleans_setElems ..) fun _ _ => .of_looks (looks_refusal _)

theorem cleans_emptyObject (count : Nat) : Cleans (emptyObject count) m := by
  unfold emptyObject
  exact .guard (.misuse _) fun _ => cleans_allocate rfl

theorem cleans_setPrototype (obj proto : Word) : Cleans (setPrototype obj proto) m := by
  refine .look (looks_propRecord _ obj) fun (ref, _) _ => .look (looks_decode proto) fun v _ => ?_
  dsimp only
  split
  · exact cleans_write (fun _ => rfl) fun _ => rfl
  · refine .look (looks_propRecord _ proto) fun (target, _) _ => .get ?_
    dsimp only
    split
    · exact .look (looks_decode obj) fun _ _ => .halt (.violate _)
    · exact cleans_write (fun _ => rfl) fun _ => rfl

theorem cleans_deleteProp (valid : m.Valid) (obj : Word) (id : PropId) : Cleans (deleteProp obj id) m := by
  refine .look (looks_propRecord _ obj) fun (ref, r) found => ?_
  dsimp only at found ⊢
  split
  · exact .pure false
  · refine .look (looks_propName id) fun name _ => ?_
    refine .bind (cleans_update fun r' found' x doubled => ?_) fun _ _ => .pure _
    cases found.symm.trans found'
    obtain ⟨slot, key⟩ := doubled
    rw [Record.dynGet?_dynErase (valid.records found).store] at key
    rw [Record.dynErase_eq] at slot
    split at key
    · cases key
    · exact ⟨slot, key⟩

/-- A property that has no slot is written to the store, and its name belongs to no other property. -/
theorem cleans_setProp (valid : m.Valid) (obj : Word) (id : PropId) (w : Word) : Cleans (setProp obj id w) m := by
  refine .look (looks_decode w) fun v _ => .guard (.misuse _) fun _ => ?_
  refine .look (looks_propRecord _ obj) fun (ref, r) found => ?_
  dsimp only at found ⊢
  split
  · split
    · apply cleans_write
      · intro r
        rw [Record.setSlot_eq]
      · intro r
        rw [Record.setSlot_eq]
    · exact .stop .broken
  next free =>
    have opened : m.Clean { m with heap := m.heap.update ref (·.withStore m.hash) } := by
      apply Machine.Clean.update
      rintro r' _ x ⟨slot, key⟩
      rw [Record.dynGet?_withStore] at key
      exact ⟨slot, key⟩
    refine (ends_bind ..).2 ((ends_openStore ..).2 ((ends_bind ..).2 (Ends.mono (looks_propName id) ?_ ?_)))
    · rintro name _ ⟨rfl, rfl, named⟩
      refine (ends_updateRecord ..).2 ⟨rfl, ?_⟩
      simp only [Heap.update_update]
      apply Machine.Clean.update
      rintro r' found' x ⟨slot, key⟩
      cases found.symm.trans found'
      change (((r.withStore m.hash).dynPut (m.types.names.name id) w).dynGet? _).isSome at key
      rw [Record.dynGet?_dynPut_withStore (valid.records found).store] at key
      split at key
      next same =>
        change (r.slotOf? x).isSome at slot
        rw [← NameTable.name_inj valid.names named same.symm, free] at slot
        cases slot
      next => exact ⟨slot, key⟩
    · rintro f m' ⟨heap, types⟩
      exact ⟨types, opened.trans (.of_eq heap) rfl⟩

theorem cleans_boxSet (box w : Word) : Cleans (boxSet box w) m := by
  refine .look (looks_decode box) fun v _ => ?_
  split
  · refine .look (looks_decode w) fun x _ => .guard (.misuse _) fun _ => ?_
    exact .look (looks_recordAt _).discard fun _ _ => cleans_write (fun _ => rfl) fun _ => rfl
  · exact .stop (.misuse _)

theorem cleans_newLiteral (t : TypeId) (values : List Word) : Cleans (newLiteral t values) m := by
  refine .look (looks_node t) fun n _ => ?_
  split
  · refine .guard (.misuse _) fun _ => ?_
    split
    · exact .stop (.misuse _)
    · exact cleans_allocate rfl
  · exact .stop (.misuse _)

theorem cleans_newClosure (t : Child) (code : GivenCode) (body : Body) (env : Option (List Word)) :
    Cleans (newClosure t code body env) m := by
  cases t with
  | none => exact .stop (.misuse _)
  | some t =>
    refine .look (looks_node t) fun n _ => ?_
    split
    · exact .stop (.misuse _)
    · refine .guard (.misuse _) fun _ => .look (looks_checkTypedCode t code) fun _ _ => ?_
      exact cleans_allocate rfl

theorem cleans_newConstructor (t : Child) (proto : Word) (code : GivenCode) (body : Body)
    (env : Option (List Word)) : Cleans (newConstructor t proto code body env) m := by
  cases t with
  | none =>
    unfold newConstructor
    exact .guard (.misuse _) fun _ => .look (looks_prototypeLink proto) fun _ _ => cleans_allocate rfl
  | some t =>
    refine .look (looks_node t) fun n _ => ?_
    split
    · exact .stop (.misuse _)
    · refine .guard (.misuse _) fun _ => .look (looks_checkTypedCode t code) fun _ _ => ?_
      exact .look (looks_prototypeLink proto) fun _ _ => cleans_allocate rfl

theorem cleans_exportClosure (fn : Word) : Cleans (exportClosure fn) m := by
  refine .look (looks_callable fn) fun (ref, r, _) _ => ?_
  dsimp only
  split
  · exact .pure _
  · exact cleans_allocate rfl

theorem cleans_instantiate (ctor : Record) : Cleans (instantiate ctor) m := by
  refine .bind (.get (cleans_emptyObject _)) fun obj _ => .look (looks_record obj) fun (ref, _) _ => ?_
  exact .bind (cleans_write (fun _ => rfl) fun _ => rfl) fun _ _ => .pure obj

def returns (act : Run α) (m : Machine) : Bool :=
  match act m with
  | .ok _ _ => true
  | .error _ _ => false

/-- Started in `m`, the action puts a property back into a store that it has left. -/
inductive Misplaces : {α : Type} → Run α → Machine → Prop where
  | coerce {w : Word} {t : Child} {m : Machine} (stopped : coerceBy .watching w t m ≠ Run.coerce w t m) :
      Misplaces (Run.coerce w t) m

end Run

namespace Machine

variable {α : Type} {act : Run α} {m : Machine}

/-- A property is gone if only the store had it, and then it is listed no more. -/
theorem Valid.deleteProp_spec {obj : Word} {ref : Ref} {r : Record} {id : PropId} (valid : m.Valid)
    (known : obj.decode? = some (.object ref) ∨ obj.decode? = some (.closure ref)) (found : m.heap.get? ref = some r)
    (named : m.types.names.name id ≠ "") :
    ∃ gone m', Run.deleteProp obj id m = .ok gone m' ∧
      (gone = true ↔ m.types.names.name id ∈ r.storeNames ∧ m.types.names.name id ∉ r.slotNames m.types.names) ∧
      (gone = true → ∃ keys, Run.ownKeys obj m' = .ok keys m' ∧ m.types.names.name id ∉ keys.1 ++ keys.2) := by
  have orderly := valid.orderly.records found
  rw [Record.mem_storeNames orderly, valid.mem_slotNames_iff named]
  by_cases slot : (r.slotOf? id).isSome
  · exact ⟨false, m, Run.deleteProp_of_slot known found slot, by simp [slot], by simp⟩
  · have free : r.slotOf? id = none := by simpa using slot
    refine ⟨_, _, Run.deleteProp_of_store known found free named, by simp [slot], fun _ => ?_⟩
    have found' := Heap.get?_update_same found fun r => (r.dynErase (m.types.names.name id)).1
    have slots (x : PropId) : (r.dynErase (m.types.names.name id)).1.slotOf? x = r.slotOf? x := by
      rw [Record.dynErase_eq]
      rfl
    refine ⟨_, Run.ownKeys_eq known found' fun x here => ?_, ?_⟩
    · rw [slots] at here
      obtain ⟨i, here⟩ := Option.isSome_iff_exists.1 here
      exact (valid.records found).named here
    · intro listed
      rcases List.mem_append.1 listed with fixed | stored
      · obtain ⟨x, here, same⟩ := Record.mem_slotNames.1 fixed
        rw [slots, ← NameTable.name_inj valid.names named same.symm] at here
        exact slot here
      · have orderly' : (r.dynErase (m.types.names.name id)).1.Orderly := by
          refine ⟨Record.dynErase_placed orderly.store _, ?_⟩
          rw [Record.dynErase_eq]
          exact orderly.untagged
        have key := (Record.mem_storeNames orderly').1 stored
        rw [Record.dynGet?_dynErase orderly.store, if_pos rfl] at key
        cases key

/-- Types that are declared leave the names of properties with slots alone. -/
theorem Apart.extend {types : TypeStore} (apart : m.Apart) (valid : m.Valid) (grown : m.types.Extends types) :
    Apart { m with types := types } := by
  rw [(valid.extend grown).orderly.apart_iff]
  rintro ref r id found ⟨slot, key⟩
  obtain ⟨i, at_slot⟩ := Option.isSome_iff_exists.1 slot
  have name := grown.names id ((valid.records found).named at_slot)
  exact valid.orderly.apart_iff.1 apart ref r id found ⟨slot, by rwa [← name]⟩

/-- The property that was put back has a slot for good. -/
theorem not_apart_of_misplaces (orderly : m.Orderly) (misplaces : act.Misplaces m) : ¬ (act.after m).Apart := by
  cases misplaces with
  | @coerce w t _ stopped =>
    obtain ⟨tends, agrees⟩ := (Run.tracks_coerce Run.Search.watching_complete orderly w t).agrees
    rcases agrees with ⟨same, _⟩ | ⟨_, displaced, _⟩
    · exact absurd same stopped
    · exact displaced.not_apart (tends.orderly orderly)

/-- A coercion that is not stopped by a watchful search moves properties, and leaves none behind. -/
theorem Apart.coerce {w : Word} {t : TypeId} (apart : m.Apart) (valid : m.Valid) (genuine : m.heap.Genuine w)
    (proper : m.types.Proper t) (same : Run.coerceBy .watching w (some t) m = Run.coerce w (some t) m) :
    ((Run.coerce w (some t)).after m).Apart := by
  have orderly := valid.orderly
  obtain ⟨tends, agrees⟩ := (Run.tracks_coerce Run.Search.watching_complete orderly w (some t)).agrees
  rcases agrees with ⟨_, clean⟩ | ⟨_, _, _, stopped⟩
  · exact (clean rfl).apart orderly (tends.orderly orderly) tends.types apart
  · -- a search that is stopped is broken, and no coercion is
    have expected := Run.ends_coerce valid genuine proper
    unfold Run.Ends at expected
    rw [same] at stopped
    rw [stopped] at expected
    exact expected.1.elim

/-- The step lemma: properties are kept apart by every operation that does not misplace one. -/
theorem Offers.apart (offer : m.Offers act) (valid : m.Valid) (apart : m.Apart) (careful : ¬ act.Misplaces m) :
    (act.after m).Apart := by
  have clean (cleans : act.Cleans m) : (act.after m).Apart := cleans.apart valid (offer.persists valid).1 apart
  cases offer with
  | newObject slots => exact clean (.get (Run.cleans_emptyObject _))
  | newLiteral => exact clean (Run.cleans_newLiteral ..)
  | newArray | newString | newUntyped => exact clean (Run.cleans_allocate rfl)
  | @newBox w => exact clean (.look (Run.looks_decode w) fun _ _ => .guard (.misuse _) fun _ => Run.cleans_allocate rfl)
  | newClosure => exact clean (Run.cleans_newClosure ..)
  | newConstructor => exact clean (Run.cleans_newConstructor ..)
  | exportClosure => exact clean (Run.cleans_exportClosure _)
  | instantiate => exact clean (Run.cleans_instantiate _)
  | setProp => exact clean (Run.cleans_setProp valid ..)
  | deleteProp => exact clean (Run.cleans_deleteProp valid ..)
  | setPrototype => exact clean (Run.cleans_setPrototype ..)
  | @arrayPut arr => exact clean (.look (Run.looks_arrayOf arr) fun _ _ => Run.cleans_settle ..)
  | @arrayPush arr | @arrayUnshift arr =>
    refine clean (.look (Run.looks_arrayOf arr) fun _ _ => ?_)
    exact .bind (Run.cleans_settle ..) fun _ _ => .pure _
  | @arrayPop arr | @arrayShift arr =>
    refine clean (.look (Run.looks_arrayOf arr) fun _ _ => ?_)
    exact .bind (Run.cleans_setElems ..) fun _ _ => .pure _
  | boxSet => exact clean (Run.cleans_boxSet ..)
  | coerce genuine proper =>
    apply apart.coerce valid genuine proper
    by_contra stopped
    exact careful (.coerce stopped)
  | pushArg w => exact clean (.get (.guard (.violate _) fun _ => ⟨rfl, .of_eq rfl⟩))
  | popArg =>
    refine clean (.get ?_)
    split
    · exact .stop (.violate _)
    · exact ⟨rfl, .of_eq rfl⟩
  | declare grown => exact apart.extend valid grown
  | clearArgs | setReturn | recover | trace | violate => exact clean ⟨rfl, .of_eq rfl⟩

/-- States that a host reaches without a coercion that misplaces a property. -/
inductive InPlace : Machine → Prop where
  | initial (hash : String → UInt64) (limits : Limits) (oracle : Oracle) {types : TypeStore}
      (distinct : types.names.names.toList.Nodup) : InPlace (Machine.initial hash limits oracle types)
  | step {α : Type} {act : Run α} {m : Machine} (before : InPlace m) (offer : m.Offers act)
      (careful : ¬ act.Misplaces m) : InPlace (act.after m)

theorem InPlace.reachable (inPlace : m.InPlace) : m.Reachable := by
  induction inPlace with
  | initial hash limits oracle distinct => exact .initial hash limits oracle distinct
  | step _ offer _ ih => exact .step ih offer

/-- The run lemma. -/
theorem InPlace.apart (inPlace : m.InPlace) : m.Apart := by
  induction inPlace with
  | initial hash limits oracle distinct =>
    intro ref r found
    have found : Heap.empty.get? ref = some r := found
    simp at found
  | step before offer careful ih => exact offer.apart before.reachable.valid ih careful

theorem InPlace.clean (before : m.InPlace) (offer : m.Offers act) (cleans : act.Cleans m) : InPlace (act.after m) := by
  have valid := before.reachable.valid
  refine .step before offer fun misplaces => ?_
  exact not_apart_of_misplaces valid.orderly misplaces (cleans.apart valid (offer.persists valid).1 before.apart)

/-- In every state, own properties are those that are listed, and those that only the store lists can be deleted. No
name is listed twice in states that are reached without misplacing a property, and one more operation, whatever it
is, leaves all properties in one place each if and only if it misplaces none. -/
theorem Reachable.ownKeys_apart_iff (reachable : m.Reachable) :
    (∀ obj ref r, obj.decode? = some (.object ref) ∨ obj.decode? = some (.closure ref) → m.heap.get? ref = some r →
      Run.ownKeys obj m = .ok (r.slotNames m.types.names, r.storeNames) m ∧
      ((r.slotNames m.types.names ++ r.storeNames).Nodup ↔ (r.slotNames m.types.names).Disjoint r.storeNames) ∧
      ∀ id, m.types.names.name id ≠ "" →
        Run.hasOwn obj id m =
          .ok (decide (m.types.names.name id ∈ r.slotNames m.types.names ++ r.storeNames)) m ∧
        ∃ gone m', Run.deleteProp obj id m = .ok gone m' ∧
          (gone = true ↔ m.types.names.name id ∈ r.storeNames ∧
            m.types.names.name id ∉ r.slotNames m.types.names) ∧
          (gone = true → ∃ keys, Run.ownKeys obj m' = .ok keys m' ∧ m.types.names.name id ∉ keys.1 ++ keys.2)) ∧
    (m.InPlace → m.Apart) ∧
    (m.Apart → ∀ {α : Type} {act : Run α}, m.Offers act → ((act.after m).Apart ↔ ¬ act.Misplaces m)) := by
  have valid := reachable.valid
  refine ⟨?_, InPlace.apart, ?_⟩
  · intro obj ref r known found
    have orderly := valid.orderly.records found
    have named (id : PropId) (slot : (r.slotOf? id).isSome) : m.types.names.name id ≠ "" := by
      obtain ⟨i, slot⟩ := Option.isSome_iff_exists.1 slot
      exact (valid.records found).named slot
    refine ⟨Run.ownKeys_eq known found named, ?_, fun id named => ⟨?_, ?_⟩⟩
    · rw [List.nodup_append']
      constructor
      · exact fun distinct => distinct.2.2
      · exact fun apart => ⟨valid.slotNames_nodup found, r.storeNames_nodup orderly, apart⟩
    · rw [Run.hasOwn_eq valid known found named, valid.own?_isSome found named]
    · exact valid.deleteProp_spec known found named
  · intro apart α act offer
    constructor
    · intro apart' misplaces
      exact not_apart_of_misplaces valid.orderly misplaces apart'
    · exact offer.apart valid apart

/-- The types `{y: V}` (6), `{x: U}` (7) and `{readonly x: U}` (8), where `U` is the first and `V` the second. -/
def entangledTypes : TypeStore :=
  ⟨⟨Graph.primitives.nodes ++ #[.object [⟨1, some 7, false⟩], .object [⟨0, some 6, false⟩],
    .object [⟨0, some 6, true⟩]]⟩, ⟨#["x", "y"]⟩⟩

/-- Two objects that have each other for a property, and one that inherits from the first. -/
def entangled : Machine :=
  (Run.setPrototype (Word.objectRef 3) (Word.objectRef 1)).after <| (Run.newObject 1).after <|
    (Run.setProp (Word.objectRef 2) 1 (Word.objectRef 1)).after <|
      (Run.setProp (Word.objectRef 1) 0 (Word.objectRef 2)).after <| (Run.newObject 1).after <|
        (Run.newObject 1).after <| Machine.initial (fun _ => 0) Limits.default Oracle.silent entangledTypes

theorem entangled_proper : entangled.types.Proper 8 :=
  .of_closed [6, 7, 8] (by decide +kernel) (by decide)

theorem genuine_object (ref : Ref) (known : (Word.objectRef ref).decode? = some (.object ref))
    (here : (m.heap.get? ref).map (·.value ref) = some (.object ref)) : m.heap.Genuine (Word.objectRef ref) := by
  refine ⟨_, known, fun _ same => ?_⟩
  cases same
  exact Option.map_eq_some_iff.1 here

theorem entangled_inPlace : entangled.InPlace := by
  have start : InPlace (Machine.initial (fun _ => 0) Limits.default Oracle.silent entangledTypes) :=
    .initial _ _ _ (by decide)
  have first := start.clean (.newObject 1) (.get (Run.cleans_emptyObject _))
  have second := first.clean (.newObject 1) (.get (Run.cleans_emptyObject _))
  have there := second.clean
    (.setProp (genuine_object 1 rfl (by decide +kernel)) (genuine_object 2 rfl (by decide +kernel)) 0)
    (Run.cleans_setProp second.reachable.valid ..)
  have back := there.clean
    (.setProp (genuine_object 2 rfl (by decide +kernel)) (genuine_object 1 rfl (by decide +kernel)) 1)
    (Run.cleans_setProp there.reachable.valid ..)
  have third := back.clean (.newObject 1) (.get (Run.cleans_emptyObject _))
  exact third.clean
    (.setPrototype (genuine_object 3 rfl (by decide +kernel)) (genuine_object 1 rfl (by decide +kernel)))
    (Run.cleans_setPrototype ..)

/-- The object that inherits is coerced to a type with `x`, which it finds in the store of the first object. When `x` is
written back, that object has a slot for it: it lists `x` twice, and `x` cannot be deleted. -/
theorem Reachable.ownKeys_apart_iff_entangled : entangled.Apart ∧
    ∃ m m', m = (Run.coerce (Word.objectRef 3) (some 8)).after entangled ∧ ¬ m.Apart ∧
      Run.ownKeys (Word.objectRef 1) m = .ok (["x"], ["x"]) m ∧
      Run.deleteProp (Word.objectRef 1) 0 m = .ok false m' := by
  have reachable := entangled_inPlace.reachable
  have offer : entangled.Offers (Run.coerce (Word.objectRef 3) (some 8)) :=
    .coerce (genuine_object 3 rfl (by decide +kernel)) entangled_proper
  have misplaces : (Run.coerce (Word.objectRef 3) (some 8)).Misplaces entangled := by
    apply Run.Misplaces.coerce
    intro same
    have stopped : (Run.coerceBy .watching (Word.objectRef 3) (some 8)).returns entangled = false := by decide +kernel
    have returned : (Run.coerce (Word.objectRef 3) (some 8)).returns entangled = true := by decide +kernel
    rw [Run.returns, same, ← Run.returns, returned] at stopped
    cases stopped
  obtain ⟨_, apart, extent⟩ := ownKeys_apart_iff reachable
  have apart := apart entangled_inPlace
  obtain ⟨objects, _⟩ := ownKeys_apart_iff (.step reachable offer)
  have lists : (((Run.coerce (Word.objectRef 3) (some 8)).after entangled).heap.get? 1).map (fun r =>
      (r.slotNames ((Run.coerce (Word.objectRef 3) (some 8)).after entangled).types.names, r.storeNames)) =
      some (["x"], ["x"]) := by decide +kernel
  obtain ⟨r, found, same⟩ := Option.map_eq_some_iff.1 lists
  obtain ⟨slots, store⟩ := Prod.mk.inj same
  obtain ⟨keys, _, named⟩ := objects (Word.objectRef 1) 1 r (.inl rfl) found
  have name : ((Run.coerce (Word.objectRef 3) (some 8)).after entangled).types.names.name 0 = "x" := by decide +kernel
  obtain ⟨_, gone, m', deleted, iff, _⟩ := named 0 (by rw [name]; decide)
  rw [slots, store] at keys
  have stays : gone = false := by
    rw [slots, name] at iff
    by_contra other
    exact (iff.1 (by simpa using other)).2 List.mem_cons_self
  rw [stays] at deleted
  exact ⟨apart, _, m', rfl, fun apart' => (extent apart offer).1 apart' misplaces, keys, deleted⟩

end Machine

end Gradual
