import Gradual.Proofs.Coercion.Treatment
import Gradual.Proofs.Machine.Keys

/-!
The account of a migration: which slots the properties of the type take, which are shared with the prototype, and what
stays in the store. `Accounted` is kept up property by property.
-/
namespace Gradual

namespace Record

variable {base : Nat} {m m₁ m₂ : Machine} {ref : Ref} {refs : List Ref} {p : Property} {r r₁ r₂ : Record}

/-- Where a property of the type is when object `r` has become `r'`: in a slot of its own if it was in the store, else
in a slot that it shares with the prototype, or on one of the prototypes `refs` and without a slot. Only a read-only
property can be a prototype's. -/
inductive Place (h : Heap) (names : NameTable) (refs : List Ref) (r r' : Record) (p : Property) : Prop where
  | own {i : Nat} {w : Word} (present : (r.dynGet? (names.name p.id)).isSome) (slot : r'.slotOf? p.id = some i)
      (here : r'.slots[i]? = some (.here w))
  | shared {q : Ref} {rq : Record} {i j : Nat} (readOnly : p.readOnly = true)
      (absent : r.dynGet? (names.name p.id) = none) (proto : r.proto = some q) (found : h.get? q = some rq)
      (entry : rq.slotOf? p.id = some j) (slot : r'.slotOf? p.id = some i)
      (forward : r'.slots[i]? = some (.forward q j))
  | left {x : Ref} {rx : Record} (readOnly : p.readOnly = true) (absent : r.dynGet? (names.name p.id) = none)
      (slot : r'.slotOf? p.id = none) (above : x ∈ refs) (found : h.get? x = some rx) (has : rx.Has names p.id)

structure Accounted (m₁ : Machine) (refs : List Ref) (r : Record) (done : List Property) (r₁ : Record) : Prop where
  proto : r₁.proto = r.proto
  size : r₁.slots.size = r.slots.size
  order : ∃ placed : List Property, placed.Sublist done ∧ r₁.fixed.map Prod.fst = placed.map (·.id)
  places : ∀ p ∈ done, Place m₁.heap m₁.types.names refs r r₁ p
  keys : ∀ name, (r₁.dynGet? name).isSome ↔
    (r.dynGet? name).isSome ∧ ∀ p ∈ done, name ≠ m₁.types.names.name p.id

theorem Has.evolves {free : Prop} {id : PropId} (has : r₁.Has m₁.types.names id) (named : m₁.types.names.name id ≠ "")
    (record : r₁.Evolves base m₁ m₂ free r₂) : r₂.Has m₂.types.names id := by
  cases slot : r₁.slotOf? id with
  | some i => exact .inl (by rw [record.entry slot]; rfl)
  | none =>
    have key : (r₁.dynGet? (m₁.types.names.name id)).isSome := has.resolve_left (by simp [slot])
    obtain ⟨v, present⟩ := Option.isSome_iff_exists.1 key
    obtain ⟨v', own, -⟩ := record.own named ((Machine.own?_of_store slot).trans present)
    cases slot' : r₂.slotOf? id with
    | some i => exact .inl (by rw [slot']; rfl)
    | none =>
      rw [Machine.own?_of_store slot'] at own
      exact .inr (by rw [own]; rfl)

/-- A property stays in its place. -/
theorem Place.evolves {free : Option Ref} (place : Place m₁.heap m₁.types.names refs r r₁ p)
    (evolves : m₁.Evolves base free m₂) (found₁ : m₁.heap.get? ref = some r₁) (found₂ : m₂.heap.get? ref = some r₂)
    (named : m₁.types.names.name p.id ≠ "") (unplaced : r₁.slotOf? p.id = none → r₂.slotOf? p.id = none) :
    Place m₂.heap m₂.types.names refs r r₂ p := by
  obtain ⟨_, same, record⟩ := evolves.records found₁
  cases found₂.symm.trans same
  cases place with
  | own present slot here =>
    obtain ⟨_, here'⟩ := record.resident slot here
    exact .own (by rwa [evolves.types]) (record.entry slot) here'
  | shared readOnly absent proto found entry slot forward =>
    obtain ⟨rq', found', other⟩ := evolves.records found
    exact .shared readOnly (by rwa [evolves.types]) proto found' (other.entry entry) (record.entry slot)
      (record.forward slot forward)
  | left readOnly absent slot above found has =>
    obtain ⟨rx', found', other⟩ := evolves.records found
    exact .left readOnly (by rwa [evolves.types]) (unplaced slot) above found' (has.evolves named other)

theorem slotOf?_append {id : PropId} {n : Nat} (fixed : r₂.fixed = r₁.fixed ++ [(id, n)]) (x : PropId) :
    r₂.slotOf? x = (r₁.slotOf? x).or (if x = id then some n else none) := by
  rw [slotOf?_eq, slotOf?_eq, fixed, List.lookup_append, List.lookup_cons]
  split <;> simp_all

/-- Only the property that is treated gets a slot. -/
theorem Treated.unplaced (treated : r₁.Treated m₂ refs p r₂) {x : PropId} (other : x ≠ p.id)
    (free : r₁.slotOf? x = none) : r₂.slotOf? x = none := by
  cases treated with
  | moved _ fixed | shared _ _ _ _ _ fixed => rw [slotOf?_append fixed, free, if_neg other]; rfl
  | left _ _ _ _ _ steady => rw [slotOf?_eq, steady.fixed, ← slotOf?_eq, free]

/-- Before the first property. -/
theorem Accounted.start (r : Record) (t : TypeId) : Accounted m₁ refs r [] (r.start ref t) where
  proto := rfl
  size := rfl
  order := ⟨[], .refl _, rfl⟩
  places := nofun
  keys _ := (and_iff_left nofun).symm

/-- A property that is still to come is in the store if it was. -/
theorem Accounted.untouched {done : List Property} (account : Accounted m₁ refs r done r₁)
    (fresh : ∀ q ∈ done, m₁.types.names.name p.id ≠ m₁.types.names.name q.id) :
    (r₁.dynGet? (m₁.types.names.name p.id)).isSome = (r.dynGet? (m₁.types.names.name p.id)).isSome := by
  rw [Bool.eq_iff_iff, account.keys]
  exact and_iff_left fresh

theorem Treated.keys (treated : r₁.Treated m₂ refs p r₂) (name : String) :
    (r₂.dynGet? name).isSome ↔ (r₁.dynGet? name).isSome ∧ name ≠ m₂.types.names.name p.id := by
  have same (absent : r₁.dynGet? (m₂.types.names.name p.id) = none)
      (keys : (r₂.dynGet? name).isSome = (r₁.dynGet? name).isSome) :
      (r₂.dynGet? name).isSome ↔ (r₁.dynGet? name).isSome ∧ name ≠ m₂.types.names.name p.id := by
    rw [keys]
    refine (and_iff_left_of_imp ?_).symm
    rintro present rfl
    rw [absent] at present
    cases present
  cases treated with
  | moved _ _ _ keys => exact keys name
  | shared _ absent _ _ _ _ _ keys => exact same absent (keys name)
  | left _ absent _ _ _ steady => exact same absent (steady.keys name)

/-- The property that was treated has a place. -/
theorem Accounted.treated {done : List Property} (account : Accounted m₁ refs r done r₁)
    (treated : r₁.Treated m₂ refs p r₂) (types : m₂.types = m₁.types) (free : r₁.slotOf? p.id = none)
    (fresh : ∀ q ∈ done, m₁.types.names.name p.id ≠ m₁.types.names.name q.id) :
    Place m₂.heap m₂.types.names refs r r₂ p := by
  have before := account.untouched fresh
  rw [← types] at before
  have next (fixed : r₂.fixed = r₁.fixed ++ [(p.id, r₁.fixed.length)]) : r₂.slotOf? p.id = some r₁.fixed.length := by
    rw [slotOf?_append fixed, free, if_pos rfl]
    rfl
  cases treated with
  | moved present fixed slot => exact .own (before ▸ present) (next fixed) slot
  | shared readOnly absent proto found entry fixed slot =>
    exact .shared readOnly (absent_of_isSome_eq before.symm absent) (account.proto ▸ proto) found entry (next fixed) slot
  | left readOnly absent above found has steady =>
    refine .left readOnly (absent_of_isSome_eq before.symm absent) ?_ above found has
    rw [slotOf?_eq, steady.fixed, ← slotOf?_eq, free]

/-- One more property. -/
theorem Accounted.step {done : List Property} (account : Accounted m₁ refs r done r₁)
    (treated : r₁.Treated m₂ refs p r₂) (evolves : m₁.Evolves base (some ref) m₂)
    (found₁ : m₁.heap.get? ref = some r₁) (found₂ : m₂.heap.get? ref = some r₂) (free : r₁.slotOf? p.id = none)
    (named : ∀ q ∈ done, m₁.types.names.name q.id ≠ "" ∧ q.id ≠ p.id)
    (fresh : ∀ q ∈ done, m₁.types.names.name p.id ≠ m₁.types.names.name q.id) :
    Accounted m₂ refs r (done ++ [p]) r₂ := by
  obtain ⟨_, same, record⟩ := evolves.records found₁
  cases found₂.symm.trans same
  obtain ⟨placed, sub, ids⟩ := account.order
  refine ⟨record.proto.trans account.proto, record.body.slots_size.trans account.size, ?_, ?_, ?_⟩
  · -- a property that is left adds no entry, the others add one at the end
    cases treated with
    | moved _ fixed | shared _ _ _ _ _ fixed =>
      exact ⟨placed ++ [p], sub.append (.refl _), by simp [fixed, ids]⟩
    | left _ _ _ _ _ steady => exact ⟨placed, sub.trans (List.sublist_append_left ..), by rw [steady.fixed, ids]⟩
  · intro q member
    rcases List.mem_append.1 member with old | new
    · obtain ⟨named, other⟩ := named q old
      exact (account.places q old).evolves evolves found₁ found₂ named (treated.unplaced other)
    · cases List.mem_singleton.1 new
      exact account.treated treated evolves.types free fresh
  · intro name
    rw [treated.keys, account.keys, evolves.types]
    simp only [List.forall_mem_append, List.forall_mem_singleton, and_assoc]

/-- The layout is frozen. -/
theorem Accounted.finish {done : List Property} (account : Accounted m₁ refs r done r₁)
    (evolves : m₁.Evolves base (some ref) m₂) (found₁ : m₁.heap.get? ref = some r₁)
    (found₂ : m₂.heap.get? ref = some r₁.finish) (named : ∀ q ∈ done, m₁.types.names.name q.id ≠ "") :
    Accounted m₂ refs r done r₁.finish where
  proto := account.proto
  size := account.size
  order := by
    have same : r₁.finish.fixed = r₁.fixed := by
      unfold Record.fixed Record.finish
      cases r₁.layout <;> rfl
    rw [same]
    exact account.order
  places q member := by
    refine (account.places q member).evolves evolves found₁ found₂ (named q member) fun free => ?_
    rw [slotOf?_finish, free]
  keys := by
    rw [evolves.types]
    exact account.keys

end Record

theorem Machine.Evolves.chain {base : Nat} {m m' : Machine} {free : Option Ref} {start : Option Ref} {refs : List Ref}
    (evolves : m.Evolves base free m') (chain : m.heap.Chain start refs) : m'.heap.Chain start refs := by
  refine chain.transfer fun x _ rx found => ?_
  obtain ⟨rx', found', record⟩ := evolves.records found
  exact ⟨rx', found', record.proto⟩

namespace Run

variable {base : Nat} {s : Search} {recur recur' : Recur} {m start : Machine} {ref : Ref} {r : Record}
  {t : TypeId} {p : Property} {pending now all : List Property} {refs : List Ref}

/-- What holds while object `r` is given the properties `all` one by one. -/
structure Accounting (base : Nat) (start : Machine) (ref : Ref) (t : TypeId) (refs : List Ref) (r : Record)
    (all pending : List Property) (m : Machine) : Prop where
  underway : Underway base start ref t pending m
  account : ∃ done r₁, all = done ++ pending ∧ m.heap.get? ref = some r₁ ∧ r.Accounted m refs done r₁

def Short (m : Machine) (ref : Ref) (r : Record) (n : Nat) : Prop :=
  ∃ r', m.heap.get? ref = some r' ∧ r'.slots.size = r.slots.size ∧ r'.fixedSize < n

section

variable (faithful : Faithful base recur) (parts : ∀ w t m, m.Orderly → Tracks s none (recur w t) (recur' w t) m)
  (valid : start.Valid) (large : base ≤ start.heap.size) (opened : ∃ r, start.heap.get? ref = some r ∧ r.tag.isSome)
  (distinct : (all.map (·.id)).Nodup) (members : ∀ p ∈ all, p ∈ (start.types.graph.node t).props)
  (chain : start.heap.Chain r.proto refs)
include faithful parts valid large opened distinct members chain

theorem Accounting.step (accounting : Accounting base start ref t refs r all (p :: pending) m) :
    Ends (migrateProp recur ref p) m (fun _ m' => Accounting base start ref t refs r all pending m')
      fun _ m' => Short m' ref r all.length := by
  obtain ⟨underway, done, r₁, rfl, found, account⟩ := accounting
  have evolves := underway.evolves
  obtain ⟨_, state⟩ := underway.migrating
  cases found.symm.trans state.found
  have member := members p (List.mem_append_right _ List.mem_cons_self)
  rw [List.map_append, List.map_cons] at distinct
  obtain ⟨-, later, apart⟩ := List.nodup_append.1 distinct
  have others (q : Property) (waiting : q ∈ pending) : q.id ≠ p.id := fun same =>
    (List.nodup_cons.1 later).1 (same ▸ List.mem_map_of_mem waiting)
  have chain' : m.heap.Chain r₁.proto refs := account.proto ▸ evolves.chain chain
  have large' := large.trans evolves.size
  have member' : p ∈ (m.types.graph.node t).props := evolves.types ▸ member
  have proper := ((evolves.valid.records found).tagged t state.tag).1
  have treats := treats_migrateProp faithful parts evolves.valid large' state member' chain'
  have steps := (underway.step faithful valid large others opened member).and
    ((ends_migrateProp faithful evolves.valid large' state others member').and treats)
  refine steps.mono ?_ ?_
  · rintro _ m₂ ⟨underway₂, provided, r₂, found₂, treated⟩
    refine ⟨underway₂, done ++ [p], r₂, by simp, found₂, ?_⟩
    have other (q : Property) (before : q ∈ done) : m.types.names.name q.id ≠ "" ∧ q.id ≠ p.id :=
      ⟨proper.named q (evolves.types ▸ members q (List.mem_append_left _ before)),
        apart _ (List.mem_map_of_mem before) _ List.mem_cons_self⟩
    refine account.step treated provided.evolves found found₂ (state.free p List.mem_cons_self) other ?_
    intro q before same
    exact (other q before).2 (NameTable.name_inj evolves.valid.names (proper.named p member') same).symm
  · rintro _ m₂ ⟨-, -, r₂, found₂, steady⟩
    obtain ⟨placed, sub, ids⟩ := account.order
    refine ⟨r₂, found₂, steady.size.trans account.size, ?_⟩
    have count : r₁.fixed.length = placed.length := by simpa using congrArg List.length ids
    rw [r₂.fixedSize_eq, steady.fixed, count, List.length_append, List.length_cons]
    exact Nat.lt_of_le_of_lt sub.length_le (by omega)

theorem Accounting.run (accounting : Accounting base start ref t refs r all (now ++ pending) m) :
    Ends (now.forM (migrateProp recur ref)) m (fun _ m' => Accounting base start ref t refs r all pending m')
      fun _ m' => Short m' ref r all.length :=
  ends_forM (fun rest => Accounting base start ref t refs r all (rest ++ pending)) now
    (fun _ _ _ before => before.step faithful parts valid large opened distinct members chain) accounting

end

end Run

namespace Record

variable {m m' : Machine} {refs : List Ref} {r r' : Record} {props : List Property}

/-- What has become of an object `r` without a type that was given the type with properties `props`. -/
structure Migrated (h : Heap) (names : NameTable) (props : List Property) (r r' : Record) : Prop where
  published : ∃ l, r'.layout = some l ∧ l.table.published = true
  numbered : r'.fixed.map Prod.snd = List.range r'.fixed.length
  fits : r'.fixed.length ≤ r.slots.size
  order : ∃ placed : List Property, placed.Sublist (Node.object props).readOnly ∧
    r'.fixed.map Prod.fst = ((Node.object props).readWrite ++ placed).map (·.id)
  places : ∀ p ∈ props, r.Place h names (h.chain r.proto) r' p
  keys : ∀ name, (r'.dynGet? name).isSome ↔ (r.dynGet? name).isSome ∧ ∀ p ∈ props, name ≠ names.name p.id

/-- A property that is read and written has a slot. -/
theorem Place.mem_fixed {h : Heap} {names : NameTable} {p : Property} (place : Place h names refs r r' p)
    (writable : p.readOnly = false) :
    p.id ∈ r'.fixed.map Prod.fst := by
  cases place with
  | own _ slot =>
    rw [slotOf?_eq] at slot
    obtain ⟨_, _, split, _⟩ := List.lookup_eq_some_iff.1 slot
    simp [split]
  | shared readOnly | left readOnly => cases writable.symm.trans readOnly

theorem Accounted.order_readWrite
    (account : Accounted m' refs r ((Node.object props).readWrite ++ (Node.object props).readOnly) r')
    (distinct : (((Node.object props).readWrite ++ (Node.object props).readOnly).map (·.id)).Nodup) :
    ∃ placed : List Property, placed.Sublist (Node.object props).readOnly ∧
      r'.fixed.map Prod.fst = ((Node.object props).readWrite ++ placed).map (·.id) := by
  obtain ⟨placed, sub, ids⟩ := account.order
  obtain ⟨written, read, rfl, first, second⟩ := List.sublist_append_iff.1 sub
  -- a writable property cannot be left out, as only the own ones pass
  have all : (Node.object props).readWrite ⊆ written := by
    intro p member
    have writable : p.readOnly = false := by
      simpa using (List.mem_filter.1 member).2
    have here := (account.places p (List.mem_append_left _ member)).mem_fixed writable
    rw [ids] at here
    obtain ⟨q, at_q, same⟩ := List.mem_map.1 here
    obtain rfl : q = p := List.inj_on_of_nodup_map distinct (sub.subset at_q) (List.mem_append_left _ member) same
    refine (List.mem_append.1 at_q).resolve_right fun other => ?_
    have readOnly := (List.mem_filter.1 (second.subset other)).2
    cases writable.symm.trans readOnly
  have nodup : (Node.object props).readWrite.Nodup :=
    (List.nodup_append.1 (distinct.of_map _)).1
  obtain rfl : written = (Node.object props).readWrite :=
    first.eq_of_length_le (List.subperm_of_subset nodup all).length_le
  exact ⟨read, second, ids⟩

end Record

namespace Run

variable {base : Nat} {s : Search} {recur recur' : Recur} {m : Machine} {ref : Ref} {r : Record} {t : TypeId}
  {props : List Property}

/-- When all properties have been dealt with, the layout is frozen. -/
theorem Accounting.finish {start : Machine} {refs : List Ref} (accounting : Accounting base start ref t refs r
      ((Node.object props).readWrite ++ (Node.object props).readOnly) [] m)
    (sorted : ((Node.object props).readWrite ++ (Node.object props).readOnly).Perm props)
    (distinct : (((Node.object props).readWrite ++ (Node.object props).readOnly).map (·.id)).Nodup)
    (shape : start.types.graph.node t = .object props) (chain : start.heap.Chain r.proto refs) :
    ∃ r', (m.heap.update ref (·.finish)).get? ref = some r' ∧
      r.Migrated (m.heap.update ref (·.finish)) m.types.names props r' := by
  obtain ⟨underway, done, r₁, all, found, account⟩ := accounting
  rw [List.append_nil] at all
  subst all
  have evolves := underway.evolves
  obtain ⟨_, state⟩ := underway.migrating
  cases found.symm.trans state.found
  have step : m.Evolves base (some ref) { m with heap := m.heap.update ref (·.finish) } :=
    .closed evolves.valid found rfl
  have found' : (m.heap.update ref (·.finish)).get? ref = some r₁.finish := Heap.get?_update_same found _
  have proper := ((evolves.valid.records found).tagged t state.tag).1
  have account' := account.finish step found found' fun q member => proper.named q (by
    rw [evolves.types, shape]
    exact sorted.mem_iff.1 member)
  obtain ⟨_, l, _, layout, _⟩ := (evolves.valid.records found).migrating_object state.migrating
  have layout' : r₁.finish.layout = some { l with table := l.table.publish } := by
    simp [Record.finish, layout]
  have laid := (step.valid.records found').layout _ layout'
  have fixed : r₁.finish.fixed = l.table.publish.entries := by
    simp [Record.fixed, layout']
  refine ⟨_, found', ⟨_, layout', laid.published⟩, ?_, ?_, account'.order_readWrite distinct, ?_, ?_⟩
  · rw [fixed]
    exact laid.numbered
  · rw [fixed, ← account'.size]
    exact laid.fits
  · intro p member
    rw [((evolves.trans step).chain chain).chain_eq]
    exact account'.places p (sorted.mem_iff.2 member)
  · intro name
    rw [account'.keys]
    simp only [sorted.mem_iff]

/-- An untyped object is given its layout, or a fault leaves it with fewer entries than the type has properties. -/
theorem migrate_accounts (faithful : Faithful base recur)
    (parts : ∀ w t m, m.Orderly → Tracks s none (recur w t) (recur' w t) m) (valid : m.Valid)
    (large : base ≤ m.heap.size) (found : m.heap.get? ref = some r) (untagged : r.tag = none) (kind : r.kind = .object)
    (proper : m.types.Proper t) (shape : m.types.graph.node t = .object props) :
    Ends (migrate recur ref t) m
      (fun _ m' => ∃ r', m'.heap.get? ref = some r' ∧ r.Migrated m'.heap m'.types.names props r')
      fun _ m' => Short m' ref r props.length := by
  have formed := proper.wellFormed.node
  rw [shape] at formed
  have sorted := Node.readWrite_append_readOnly_perm props
  have distinct := (sorted.map (·.id)).nodup_iff.2 formed.1
  have opened : Opened base m ref t { m with heap := m.heap.update ref (·.start ref t) } :=
    .of_tag valid found untagged kind proper shape
  have begun : ({ m with heap := m.heap.update ref (·.start ref t) } : Machine).heap.get? ref = some (r.start ref t) :=
    Heap.get?_update_same found _
  obtain ⟨_, links⟩ := valid.chains found
  cases links with
  | @cons _ _ refs at_ref links =>
    cases at_ref.symm.trans found
    have chain := opened.evolves.chain links
    rw [migrate_eq]
    simp only [migrateEach, forProperties, ends_bind, ends_updateRecord, ends_node, shape]
    generalize ({ m with heap := m.heap.update ref (·.start ref t) } : Machine) = start at opened begun chain ⊢
    have valid' := opened.evolves.valid
    have large' := large.trans opened.evolves.size
    have shape' : start.types.graph.node t = .object props := opened.evolves.types ▸ shape
    have tagged : ∃ r, start.heap.get? ref = some r ∧ r.tag.isSome := ⟨_, begun, rfl⟩
    have members (p : Property) (member : p ∈ (Node.object props).readWrite ++ (Node.object props).readOnly) :
        p ∈ (start.types.graph.node t).props := by
      rw [shape']
      exact sorted.mem_iff.1 member
    have begins : Accounting base start ref t refs r ((Node.object props).readWrite ++ (Node.object props).readOnly)
        ((Node.object props).readWrite ++ (Node.object props).readOnly) start := {
      underway := opened.underway fun p member => sorted.mem_iff.2 (by rwa [shape'] at member)
      account := ⟨[], _, rfl, begun, .start r t⟩ }
    rw [← sorted.length_eq]
    refine (begins.run faithful parts valid' large' tagged distinct members chain).mono (fun _ m₂ written => ?_)
      fun _ _ fault => fault
    have written : Accounting base start ref t refs r ((Node.object props).readWrite ++ (Node.object props).readOnly)
        ((Node.object props).readOnly ++ []) m₂ := by rwa [List.append_nil]
    exact (written.run faithful parts valid' large' tagged distinct members chain).mono
      (fun _ m₃ complete => complete.finish sorted distinct shape' chain) fun _ _ fault => fault

/-- If the fault is that the object has no room, then the object is short of it. -/
theorem coerceWithin_accounts (budget : Nat) (valid : m.Valid) (found : m.heap.get? ref = some r)
    (untagged : r.tag = none) (kind : r.kind = .object) (proper : m.types.Proper t)
    (shape : m.types.graph.node t = .object props) :
    Ends (coerceWithin budget (r.word ref) (some t)) m
      (fun w m' => w = r.word ref ∧ ∃ r', m'.heap.get? ref = some r' ∧ r.Migrated m'.heap m'.types.names props r')
      fun f m' => ∀ slots name, f = .violation (.noRoom (r.value ref).text slots name) →
        Short m' ref r props.length := by
  cases budget with
  | zero =>
    rintro slots name same
    cases same
  | succ budget =>
    have known : (r.word ref).decode? = some (.object ref) := by
      rw [valid.word_decode? found]
      simp [Record.value, kind]
    have untyped : untypedObject? (r.word ref) t { m with depth := m.depth + 1 } = some ref := by
      simp [untypedObject?, shape, known, found, untagged, kind]
    obtain ⟨_, -, -, step⟩ := coerceStep_of_untyped (coerceWithin budget) untyped
    rw [coerceWithin, ends_nested]
    refine .of_eq step ?_
    have valid' : Machine.Valid { m with depth := m.depth + 1 } := valid.reframe rfl rfl
    have faithful : Faithful m.heap.size (coerceWithin budget) := coerceWithin_faithful budget
    rw [ends_bind]
    refine (migrate_accounts faithful (tracks_coerceWithin Search.watching_complete budget) valid' (Nat.le_refl _) found
      untagged kind proper shape).mono ?_ ?_
    · rintro _ m' ⟨r', found', migrated⟩
      exact ⟨rfl, r', found', migrated⟩
    · rintro f m' short _ _ _
      exact short

end Run

/-- Each writable property has taken a slot. -/
theorem Record.Migrated.room {h : Heap} {names : NameTable} {props : List Property} {r r' : Record}
    (migrated : r.Migrated h names props r') : (Node.object props).readWrite.length ≤ r.slots.size := by
  obtain ⟨placed, -, ids⟩ := migrated.order
  have count : r'.fixed.length = (Node.object props).readWrite.length + placed.length := by
    simpa using congrArg List.length ids
  have fits := migrated.fits
  omega

/-- A fault is a violation as long as there is a handle left. -/
theorem Fault.Raised.violation {f : Fault} {m : Machine} (raised : f.Raised m) (handles : m.heap.size < maxRef) :
    ∃ v, f = .violation v := by
  unfold Fault.Raised at raised
  split at raised
  next v => exact ⟨v, rfl⟩
  next => exact absurd handles (Nat.not_lt.2 raised)
  next => exact raised.elim

/-- An untyped object that takes a type has its writable properties in the first slots and some of the others in the
next ones, all in the order of the type. It never lacks room if there is a slot for each property, and it cannot take
the type if there are more writable properties than slots. -/
theorem Machine.Reachable.coerce_accounts {m : Machine} {ref : Ref} {r : Record} {t : TypeId} {props : List Property}
    (reachable : m.Reachable) (found : m.heap.get? ref = some r) (kind : r.kind = .object) (untagged : r.tag = none)
    (proper : m.types.Proper t) (shape : m.types.graph.node t = .object props) :
    Run.Ends (Run.coerce (r.word ref) (some t)) m
      (fun w m' => w = r.word ref ∧ ∃ r', m'.heap.get? ref = some r' ∧ r.Migrated m'.heap m'.types.names props r')
      (fun f _ => props.length ≤ r.slots.size →
        ∀ slots name, f ≠ .violation (.noRoom (r.value ref).text slots name)) ∧
    (r.slots.size < (Node.object props).readWrite.length → ∃ f m',
      Run.coerce (r.word ref) (some t) m = .error f m' ∧ (m'.heap.size < maxRef → ∃ v, f = .violation v)) := by
  have valid := reachable.valid
  have faithful := Run.coerce_faithful valid (valid.word_genuine found) proper
  have grounds := Run.grounds_coerceWithin (m.limits.coerceDepth - m.depth) (r.word ref) (some t) m
  have accounts := Run.coerceWithin_accounts (m.limits.coerceDepth - m.depth) valid found untagged kind proper shape
  have ends := faithful.and (grounds.and accounts)
  refine ⟨ends.mono ?_ ?_, fun few => ?_⟩
  · rintro w m' ⟨-, -, account⟩
    exact account
  · rintro f m' ⟨-, grounded, account⟩ room slots name same
    obtain ⟨r₁, found₁, size, fewer⟩ := account slots name same
    -- the record that the fault names is full, and it can only be the object
    obtain ⟨x, rx, at_x, value, full⟩ := grounded _ slots name same
    obtain rfl := Record.text_value_inj value
    cases found₁.symm.trans at_x
    omega
  · unfold Run.Ends at ends
    cases result : Run.coerce (r.word ref) (some t) m with
    | ok w m' =>
      rw [result] at ends
      obtain ⟨-, -, -, _, -, migrated⟩ := ends
      exact absurd migrated.room (Nat.not_le.2 few)
    | error f m' =>
      rw [result] at ends
      obtain ⟨⟨raised, -⟩, -⟩ := ends
      exact ⟨f, m', rfl, raised.violation⟩

/-- The types `{b: int}` (6), `{readonly b: int, readonly a: int, d: int, readonly c: int}` (7) and `{c: int, d: int}`
(8). -/
def mixedTypes : TypeStore :=
  ⟨⟨Graph.primitives.nodes ++ #[.object [⟨1, some 0, false⟩],
    .object [⟨1, some 0, true⟩, ⟨0, some 0, true⟩, ⟨3, some 0, false⟩, ⟨2, some 0, true⟩],
    .object [⟨2, some 0, false⟩, ⟨3, some 0, false⟩]]⟩, ⟨#["a", "b", "c", "d", "e"]⟩⟩

namespace Machine

/-- An object of three slots with properties `a`, `d` and `e`, which inherits `b` from a literal and `c` from an object
further up. -/
def mixed : Machine :=
  (Run.setProp (Word.objectRef 3) 4 (Word.ofInt 4)).after <| (Run.setProp (Word.objectRef 3) 3 (Word.ofInt 3)).after <|
    (Run.setProp (Word.objectRef 3) 0 (Word.ofInt 0)).after <|
      (Run.setPrototype (Word.objectRef 3) (Word.objectRef 2)).after <| (Run.newObject 3).after <|
        (Run.setPrototype (Word.objectRef 2) (Word.objectRef 1)).after <| (Run.newLiteral 6 [Word.ofInt 1]).after <|
          (Run.setProp (Word.objectRef 1) 2 (Word.ofInt 2)).after <| (Run.newObject 1).after <|
            Machine.initial (fun _ => 0) Limits.default Oracle.silent mixedTypes

theorem mixed_proper (t : TypeId) (member : t ∈ [0, 6, 7, 8]) : mixed.types.Proper t :=
  .of_closed [0, 6, 7, 8] (by decide +kernel) member

theorem mixed_reachable : mixed.Reachable := by
  have int (m : Machine) (n : Int32) (known : (Word.ofInt n).decode? = some (.int n)) :
      m.heap.Genuine (Word.ofInt n) := ⟨_, known, nofun⟩
  have start : Reachable (.initial (fun _ => 0) Limits.default Oracle.silent mixedTypes) := .initial _ _ _ (by decide)
  have first := (start.step (.newObject 1)).step
    (.setProp (genuine_object 1 rfl (by decide +kernel)) (int _ 2 rfl) 2)
  have literal := first.step (show Offers _ (Run.newLiteral 6 [Word.ofInt 1]) from
    .newLiteral (.of_closed [0, 6, 7, 8] (by decide +kernel) (by decide)) fun w member =>
      List.mem_singleton.1 member ▸ int _ 1 rfl)
  have second := literal.step
    (.setPrototype (genuine_object 2 rfl (by decide +kernel)) (genuine_object 1 rfl (by decide +kernel)))
  have third := (second.step (.newObject 3)).step
    (.setPrototype (genuine_object 3 rfl (by decide +kernel)) (genuine_object 2 rfl (by decide +kernel)))
  exact ((third.step (.setProp (genuine_object 3 rfl (by decide +kernel)) (int _ 0 rfl) 0)).step
    (.setProp (genuine_object 3 rfl (by decide +kernel)) (int _ 3 rfl) 3)).step
    (.setProp (genuine_object 3 rfl (by decide +kernel)) (int _ 4 rfl) 4)

/-- The object has a slot for three of the four properties: `d` and `a` are its own, `b` is shared, and `c` is left
where it was. The object of one slot cannot take a type with two writable properties. -/
theorem Reachable.coerce_accounts_mixed : ∃ r r' m', mixed.heap.get? 3 = some r ∧
    Run.coerce (Word.objectRef 3) (some 7) mixed = .ok (Word.objectRef 3) m' ∧ m'.heap.get? 3 = some r' ∧
    r'.fixed = [(3, 0), (1, 1), (0, 2)] ∧
    r.Migrated m'.heap m'.types.names [⟨1, some 0, true⟩, ⟨0, some 0, true⟩, ⟨3, some 0, false⟩, ⟨2, some 0, true⟩] r' ∧
    ∃ v m₁, Run.coerce (Word.objectRef 1) (some 8) mixed = .error (.violation v) m₁ := by
  have untyped (ref : Ref) (slots : Nat) (member : (ref, slots) ∈ [(1, 1), (3, 3)]) :
      ∃ r, mixed.heap.get? ref = some r ∧ r.kind = .object ∧ r.tag = none ∧ r.slots.size = slots := by
    have seen : ∀ x ∈ [(1, 1), (3, 3)], (mixed.heap.get? x.1).map (fun r => (r.kind, r.tag, r.slots.size)) =
        some (.object, none, x.2) := by decide +kernel
    obtain ⟨r, found, same⟩ := Option.map_eq_some_iff.1 (seen _ member)
    simp only [Prod.mk.injEq] at same
    exact ⟨r, found, same⟩
  obtain ⟨r, found, kind, untagged, -⟩ := untyped 3 3 (by decide)
  obtain ⟨r₁, found₁, kind₁, untagged₁, size⟩ := untyped 1 1 (by decide)
  obtain ⟨ends, -⟩ := coerce_accounts mixed_reachable found kind untagged (mixed_proper 7 (by decide)) rfl
  obtain ⟨-, short⟩ := coerce_accounts mixed_reachable found₁ kind₁ untagged₁ (mixed_proper 8 (by decide)) rfl
  obtain ⟨f, m₁, failed, violation⟩ := short (by rw [size]; decide)
  have word (x : Record) (ref : Ref) (kind : x.kind = .object) : x.word ref = Word.objectRef ref := by
    simp [Record.word, kind]
  rw [word _ _ kind] at ends
  rw [word _ _ kind₁] at failed
  have returned : (Run.coerce (Word.objectRef 3) (some 7)).returns mixed = true := by decide +kernel
  have entries : (((Run.coerce (Word.objectRef 3) (some 7)).after mixed).heap.get? 3).map (·.fixed) =
      some [(3, 0), (1, 1), (0, 2)] := by decide +kernel
  have handles : ((Run.coerce (Word.objectRef 1) (some 8)).after mixed).heap.size < maxRef := by decide +kernel
  rw [Run.after, failed] at handles
  obtain ⟨v, rfl⟩ := violation handles
  unfold Run.Ends at ends
  unfold Run.returns at returned
  unfold Run.after at entries
  cases result : Run.coerce (Word.objectRef 3) (some 7) mixed with
  | error => simp [result] at returned
  | ok w m' =>
    rw [result] at ends entries
    obtain ⟨rfl, r', found', migrated⟩ := ends
    rw [found'] at entries
    exact ⟨r, r', m', found, rfl, found', Option.some.inj entries, migrated, v, m₁, failed⟩

end Machine

end Gradual
