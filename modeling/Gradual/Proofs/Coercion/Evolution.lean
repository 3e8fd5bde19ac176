import Gradual.Machine.Coercion
import Gradual.Proofs.Machine.Valid

/-!
What a coercion may do to the heap, said once for single steps and for whole runs. Values stay, except
that an untyped closure may be replaced by a new closure that wraps it; tags, layouts and links stay;
a record without a tag may take one, and a record that is being given a layout may take more slots.

`Machine.Evolves` is reflexive and transitive, so a run evolves if its steps do, however it ends.
-/
namespace Gradual

def Record.Wraps (r : Record) (old : Ref) : Prop :=
  ∃ n t, r.body = .closure (.importing n old t) ∧ r.tag = some t

def Record.wrapper (n : Nat) (old : Ref) (t : TypeId) : Record :=
  { Record.plain (.closure (.importing n old t)) with tag := some t }

theorem Record.wrapper_wraps (n : Nat) (old : Ref) (t : TypeId) : (Record.wrapper n old t).Wraps old :=
  ⟨n, t, rfl, rfl⟩

def Machine.Imports (m : Machine) (n : Nat) (old : Ref) (t : TypeId) : Prop :=
  ∃ sig r, m.types.graph.node t = .closure sig ∧ sig.explicitCount = n ∧ m.heap.get? old = some r ∧
    r.kind.isCallable ∧ r.tag = none

/-- The value `w` is `v`, or a closure made after the first `base` records that wraps the untyped closure
which `v` is. -/
inductive Kept (base : Nat) (h : Heap) : Word → Word → Prop where
  | same {v : Word} : Kept base h v v
  | wrapped {v w : Word} {old new : Ref} {r r' : Record} (untyped : v.decode? = some (.closure old))
      (found : h.get? old = some r) (callable : r.kind.isCallable) (untagged : r.tag = none)
      (typed : w.decode? = some (.closure new)) (made : base < new) (found' : h.get? new = some r')
      (wraps : r'.Wraps old) : Kept base h v w

inductive RecordBody.Evolves (base : Nat) (h : Heap) : RecordBody → RecordBody → Prop where
  | same {b : RecordBody} : Evolves base h b b
  | object {s s' : Array Slot} (size : s'.size = s.size) : Evolves base h (.object s) (.object s')
  | array {d d' : Deque} (size : d'.size = d.size) (elems : ∀ i, Kept base h (d.get i) (d'.get i)) :
      Evolves base h (.array d) (.array d')

/-- The property is a read-only one of the record's type and shared with its prototype. -/
def Machine.Shares (m : Machine) (r : Record) (id : PropId) : Prop :=
  ∃ t p q rq i j, r.tag = some t ∧ p ∈ (m.types.graph.node t).props ∧ p.id = id ∧ p.readOnly = true ∧
    r.proto = some q ∧ m.heap.get? q = some rq ∧ r.slotOf? id = some i ∧
    r.slots[(i : Nat)]? = some (.forward q j) ∧ rq.slotOf? id = some j

/-- How one record may change while values are coerced. Only a `free` record takes new slots although
it has a tag. -/
structure Record.Evolves (base : Nat) (m m' : Machine) (free : Prop) (r r' : Record) : Prop where
  proto : r'.proto = r.proto
  cell : r'.cell = r.cell
  body : r.body.Evolves base m'.heap r'.body
  tag : ∀ t, r.tag = some t → r'.tag = some t
  untagged : r.kind ≠ .object → r.kind ≠ .array → r'.tag = r.tag
  layout : r'.layout = none → r.layout = none
  frozen : r.tag.isSome → ¬free →
    r'.layout = r.layout ∧ r'.migrating = r.migrating ∧ (r.migrating = false → r'.slots = r.slots)
  entry : ∀ {id : PropId} {i : Nat}, r.slotOf? id = some i → r'.slotOf? id = some i
  forward : ∀ {id : PropId} {i : Nat} {q : Ref} {j : Nat}, r.slotOf? id = some i →
    r.slots[i]? = some (.forward q j) → r'.slots[i]? = some (.forward q j)
  resident : ∀ {id : PropId} {i : Nat} {w : Word}, r.slotOf? id = some i → r.slots[i]? = some (.here w) →
    ∃ w', r'.slots[i]? = some (.here w')
  own : ∀ {id : PropId} {v : Word}, m.types.names.name id ≠ "" → m.own? r id = some v →
    ∃ v', m'.own? r' id = some v' ∧ Kept base m'.heap v v'
  grown : ∀ {id : PropId} {v : Word}, m.types.names.name id ≠ "" → m.own? r id = none →
    m'.own? r' id = some v → (r.tag = none ∨ free) ∧ m'.Shares r' id
  hasStore : r'.dyn.isSome = r.dyn.isSome
  store : r'.layout = none → ∀ name, Option.Rel (Kept base m'.heap) (r.dynGet? name) (r'.dynGet? name)

/-- How the machine may change while values are coerced, with `free` the record that is being given a
layout. -/
structure Machine.Evolves (base : Nat) (free : Option Ref) (m m' : Machine) : Prop where
  valid : m'.Valid
  frame : m' = { m with heap := m'.heap, dirty := m'.dirty }
  size : m.heap.size ≤ m'.heap.size
  fresh : ∀ {ref : Nat} {r : Record}, m.heap.size < ref → m'.heap.get? ref = some r → ∃ old, r.Wraps old
  imports : ∀ {ref : Nat} {r : Record} {n : Nat} {old : Ref} {t : TypeId}, m.heap.size < ref →
    m'.heap.get? ref = some r → r.body = .closure (.importing n old t) → m'.Imports n old t
  records : ∀ {ref : Ref} {r : Record}, m.heap.get? ref = some r →
    ∃ r', m'.heap.get? ref = some r' ∧ r.Evolves base m m' (free = some ref) r'

theorem RecordBody.Evolves.kind {base : Nat} {h : Heap} {r r' : Record} (body : r.body.Evolves base h r'.body) :
    r'.kind = r.kind := by
  unfold Record.kind
  generalize r.body = b at body ⊢
  generalize r'.body = b' at body ⊢
  cases body <;> rfl

theorem Record.Evolves.kind {base : Nat} {m m' : Machine} {free : Prop} {r r' : Record}
    (evolves : r.Evolves base m m' free r') : r'.kind = r.kind :=
  evolves.body.kind

/-- Closures and strings keep what they are made of. -/
theorem RecordBody.Evolves.eq {base : Nat} {h : Heap} {b b' : RecordBody} (body : b.Evolves base h b')
    (not_object : ∀ s, b ≠ .object s) (not_array : ∀ d, b ≠ .array d) : b' = b := by
  cases body with
  | same => rfl
  | object => exact absurd rfl (not_object _)
  | array => exact absurd rfl (not_array _)

theorem Record.Evolves.wraps {base : Nat} {m m' : Machine} {free : Prop} {r r' : Record} {old : Ref}
    (evolves : r.Evolves base m m' free r') (wraps : r.Wraps old) : r'.Wraps old := by
  obtain ⟨n, t, body, tag⟩ := wraps
  refine ⟨n, t, ?_, evolves.tag t tag⟩
  rw [evolves.body.eq (by simp [body]) (by simp [body]), body]

/-- Closures keep their code and their tag. -/
theorem Record.Evolves.of_callable {base : Nat} {m m' : Machine} {free : Prop} {r r' : Record}
    (evolves : r.Evolves base m m' free r') (callable : r.kind.isCallable) : r'.body = r.body ∧ r'.tag = r.tag := by
  have not_object : r.kind ≠ .object := by rintro kind; rw [kind] at callable; cases callable
  have not_array : r.kind ≠ .array := by rintro kind; rw [kind] at callable; cases callable
  refine ⟨evolves.body.eq (fun s body => not_object ?_) fun d body => not_array ?_,
    evolves.untagged not_object not_array⟩
  all_goals simp [Record.kind, body]

namespace Kept

variable {base : Nat} {h : Heap} {u v w : Word}

/-- Wrapping is a matter of the closures in the heap alone. -/
theorem transfer {h' : Heap} (kept : Kept base h v w) (closures : ∀ ref r, h.get? ref = some r →
    r.kind.isCallable → ∃ r', h'.get? ref = some r' ∧ r'.body = r.body ∧ r'.tag = r.tag) :
    Kept base h' v w := by
  cases kept with
  | same => exact .same
  | wrapped untyped found callable untagged typed made found' wraps =>
    obtain ⟨n, t, body, tag⟩ := wraps
    obtain ⟨r₁, found₁, body₁, tag₁⟩ := closures _ _ found callable
    obtain ⟨r₂, found₂, body₂, tag₂⟩ := closures _ _ found' (by simp [Record.kind, body, RecordKind.isCallable])
    have callable₁ : r₁.kind.isCallable := by
      unfold Record.kind at callable ⊢
      rwa [body₁]
    exact .wrapped untyped found₁ callable₁ (tag₁.trans untagged) typed made found₂
      ⟨n, t, body₂.trans body, tag₂.trans tag⟩

theorem update {ref : Ref} {r : Record} {f : Record → Record} (kept : Kept base h v w)
    (found : h.get? ref = some r) (closure : r.kind.isCallable → (f r).body = r.body ∧ (f r).tag = r.tag) :
    Kept base (h.update ref f) v w := by
  refine kept.transfer fun x rx present callable => ?_
  by_cases same : x = ref
  · subst same
    cases found.symm.trans present
    exact ⟨f r, Heap.get?_update_same found f, closure callable⟩
  · exact ⟨rx, by rw [Heap.get?_update_ne same, present], rfl, rfl⟩

theorem mono {free : Option Ref} {m m' : Machine} (kept : Kept base m.heap v w)
    (evolves : Machine.Evolves base free m m') : Kept base m'.heap v w := by
  refine kept.transfer fun ref r found callable => ?_
  obtain ⟨r', found', record⟩ := evolves.records found
  exact ⟨r', found', record.of_callable callable⟩

/-- A wrapper is typed and so is not wrapped again. -/
theorem trans (first : Kept base h u v) (second : Kept base h v w) : Kept base h u w := by
  cases first with
  | same => exact second
  | wrapped untyped found callable untagged typed made found' wraps =>
    cases second with
    | same => exact .wrapped untyped found callable untagged typed made found' wraps
    | wrapped untyped₂ found₂ _ untagged₂ =>
      cases typed.symm.trans untyped₂
      cases found'.symm.trans found₂
      obtain ⟨_, _, _, tag⟩ := wraps
      rw [untagged₂] at tag
      cases tag

end Kept

/-- An own property is read the same if its own place is the same and so are the slots of finished
records. -/
theorem Machine.Valid.own?_eq {m m' : Machine} (valid : m.Valid) (valid' : m'.Valid)
    (types : m'.types = m.types) {ref : Ref} {r r' : Record} (found : m.heap.get? ref = some r)
    (found' : m'.heap.get? ref = some r')
    (slots : ∀ q rq, m.heap.get? q = some rq → rq.tag.isSome → rq.migrating = false →
      ∃ rq', m'.heap.get? q = some rq' ∧ rq'.slots = rq.slots) {id : PropId}
    (entry : r'.slotOf? id = r.slotOf? id) (slot : ∀ i, r.slotOf? id = some i → r'.slots[i]? = r.slots[i]?)
    (store : r.slotOf? id = none → r'.dynGet? (m.types.names.name id) = r.dynGet? (m.types.names.name id)) :
    m'.own? r' id = m.own? r id := by
  cases place : r.slotOf? id with
  | none => rw [own?_of_store place, own?_of_store (entry.trans place), types, store place]
  | some i =>
    obtain ⟨s, w, at_slot, resolves, own⟩ := valid.own?_of_slot found place
    obtain ⟨s', w', at_slot', resolves', own'⟩ := valid'.own?_of_slot found' (entry.trans place)
    cases at_slot.symm.trans ((slot i place).symm.trans at_slot')
    obtain ⟨rank, fwd⟩ := valid.forwarding
    rw [own, own', (resolves.transfer fwd found at_slot slots).unique resolves']

theorem kept_rel_refl {base : Nat} {h : Heap} (v : Option Word) : Option.Rel (Kept base h) v v := by
  cases v with
  | none => exact .none
  | some v => exact .some .same

theorem kept_of_rel {base : Nat} {h : Heap} {v : Word} {o : Option Word}
    (rel : Option.Rel (Kept base h) (some v) o) : ∃ w, o = some w ∧ Kept base h v w := by
  cases rel with
  | some kept => exact ⟨_, rfl, kept⟩

theorem kept_of_rel' {base : Nat} {h : Heap} {w : Word} {o : Option Word}
    (rel : Option.Rel (Kept base h) o (some w)) : ∃ v, o = some v ∧ Kept base h v w := by
  cases rel with
  | some kept => exact ⟨_, rfl, kept⟩

/-- A record that stays as it is evolves, if its own properties are read the same. -/
theorem Record.Evolves.unchanged {base : Nat} {m m' : Machine} {free : Prop} {r : Record}
    (own : ∀ id, m'.own? r id = m.own? r id) : r.Evolves base m m' free r where
  proto := rfl
  cell := rfl
  body := .same
  tag _ tag := tag
  untagged _ _ := rfl
  layout none := none
  frozen _ _ := ⟨rfl, rfl, fun _ => rfl⟩
  entry slot := slot
  forward _ slot := slot
  resident _ slot := ⟨_, slot⟩
  own {id v} _ found := ⟨v, (own id).trans found, .same⟩
  grown {id v} _ missing found := by
    rw [own id, missing] at found
    cases found
  hasStore := rfl
  store _ name := kept_rel_refl _

namespace Machine.Evolves

variable {base : Nat} {free : Option Ref} {m m' m'' : Machine}

theorem refl (valid : m.Valid) : Evolves base free m m where
  valid := valid
  frame := rfl
  size := Nat.le_refl _
  fresh {ref r} above found := by
    have := (Heap.get?_bounds found).2
    omega
  imports {ref r} _ _ _ above found _ := by
    have := (Heap.get?_bounds found).2
    omega
  records {ref r} found := ⟨r, found, .unchanged fun _ => rfl⟩

theorem types (evolves : Evolves base free m m') : m'.types = m.types := by rw [evolves.frame]

theorem limits (evolves : Evolves base free m m') : m'.limits = m.limits := by rw [evolves.frame]

theorem kinds (evolves : Evolves base free m m') (ref : Ref) (r : Record) (found : m.heap.get? ref = some r) :
    ∃ r', m'.heap.get? ref = some r' ∧ r'.kind = r.kind := by
  obtain ⟨r', found', record⟩ := evolves.records found
  exact ⟨r', found', record.kind⟩

theorem hasStore (evolves : Evolves base free m m') {ref : Ref} {r r' : Record} {name : String} {w : Word}
    (found : m.heap.get? ref = some r) (found' : m'.heap.get? ref = some r') (present : r.dynGet? name = some w) :
    r'.dyn.isSome := by
  obtain ⟨_, found'', record⟩ := evolves.records found
  cases found'.symm.trans found''
  rw [record.hasStore]
  exact Record.dyn_isSome present

/-- Only heap and types are data. -/
theorem reframe {n n' : Machine} (evolves : Evolves base free m m') (heap : n.heap = m.heap)
    (types : n.types = m.types) (heap' : n'.heap = m'.heap)
    (frame : n' = { n with heap := n'.heap, dirty := n'.dirty }) : Evolves base free n n' := by
  have types' : n'.types = m'.types := by
    rw [frame, evolves.types]
    exact types
  cases m
  cases m'
  cases n
  cases n'
  cases heap
  cases types
  cases heap'
  cases types'
  exact {
    valid := evolves.valid.reframe rfl rfl
    frame := frame
    size := evolves.size
    fresh := evolves.fresh
    imports := evolves.imports
    records := fun found => by
      obtain ⟨r', found', record⟩ := evolves.records found
      exact ⟨r', found', ⟨record.proto, record.cell, record.body, record.tag, record.untagged, record.layout,
        record.frozen, record.entry, record.forward, record.resident, record.own, record.grown,
        record.hasStore, record.store⟩⟩ }

theorem dirty (evolves : Evolves base free m m') (flag : Bool) : Evolves base free m { m' with dirty := flag } :=
  evolves.reframe rfl rfl rfl (by rw [evolves.frame])

/-- A record that had no tag at the start was free to take its layout anyway. -/
theorem close (evolves : Evolves base (some ref) m m') {r : Record} (found : m.heap.get? ref = some r)
    (untagged : r.tag = none) : Evolves base free m m' where
  valid := evolves.valid
  frame := evolves.frame
  size := evolves.size
  fresh := evolves.fresh
  imports := evolves.imports
  records {x rx} present := by
    obtain ⟨r', found', record⟩ := evolves.records present
    refine ⟨r', found', { record with frozen := fun tagged _ => ?_, grown := fun named missing own => ?_ }⟩
    · by_cases same : ref = x
      · subst same
        cases found.symm.trans present
        rw [untagged] at tagged
        cases tagged
      · exact record.frozen tagged fun free => same (Option.some.inj free)
    · obtain ⟨how, shares⟩ := record.grown named missing own
      refine ⟨.inl ?_, shares⟩
      rcases how with none | free
      · exact none
      · cases free
        cases found.symm.trans present
        exact untagged

/-- What holds without a free record holds with one. -/
theorem weaken (evolves : Evolves base none m m') : Evolves base free m m' where
  valid := evolves.valid
  frame := evolves.frame
  size := evolves.size
  fresh := evolves.fresh
  imports := evolves.imports
  records {x rx} present := by
    obtain ⟨r', found', record⟩ := evolves.records present
    refine ⟨r', found', { record with
      frozen := fun tagged _ => record.frozen tagged nofun
      grown := fun named missing own => ?_ }⟩
    obtain ⟨how, shares⟩ := record.grown named missing own
    exact ⟨.inl (how.resolve_right nofun), shares⟩

end Machine.Evolves

theorem Machine.Shares.mono {base : Nat} {free : Option Ref} {free' : Prop} {m m' : Machine} {r r' : Record}
    {id : PropId} (shares : m.Shares r id) (evolves : Machine.Evolves base free m m')
    (record : r.Evolves base m m' free' r') : m'.Shares r' id := by
  obtain ⟨t, p, q, rq, i, j, tag, member, same, readOnly, proto, at_q, slot, forward, entry⟩ := shares
  obtain ⟨rq', at_q', record'⟩ := evolves.records at_q
  exact ⟨t, p, q, rq', i, j, record.tag t tag, evolves.types ▸ member, same, readOnly,
    record.proto.trans proto, at_q', record.entry slot, record.forward slot forward, record'.entry entry⟩

theorem RecordBody.Evolves.trans {base : Nat} {free : Option Ref} {m m' : Machine} {b b' b'' : RecordBody}
    (evolves : Machine.Evolves base free m m') (first : b.Evolves base m.heap b')
    (second : b'.Evolves base m'.heap b'') : b.Evolves base m'.heap b'' := by
  cases first with
  | same => exact second
  | object size =>
    cases second with
    | same => exact .object size
    | object size' => exact .object (size'.trans size)
  | array size elems =>
    cases second with
    | same => exact .array size fun i => (elems i).mono evolves
    | array size' elems' =>
      exact .array (size'.trans size) fun i => ((elems i).mono evolves).trans (elems' i)

theorem RecordBody.Evolves.slots_size {base : Nat} {h : Heap} {r r' : Record}
    (body : r.body.Evolves base h r'.body) : r'.slots.size = r.slots.size := by
  unfold Record.slots
  generalize r.body = b at body ⊢
  generalize r'.body = b' at body ⊢
  cases body with
  | object size => exact size
  | _ => rfl

theorem kept_rel_trans {base : Nat} {free : Option Ref} {m m' : Machine} (evolves : Machine.Evolves base free m m')
    {u v w : Option Word} (first : Option.Rel (Kept base m.heap) u v)
    (second : Option.Rel (Kept base m'.heap) v w) : Option.Rel (Kept base m'.heap) u w := by
  cases first with
  | none => exact second
  | some first => cases second with | some second => exact .some ((first.mono evolves).trans second)

theorem Record.Evolves.trans {base : Nat} {free : Option Ref} {own : Prop} {m m' m'' : Machine} {r r' r'' : Record}
    (types : m'.types = m.types) (evolves : Machine.Evolves base free m' m'')
    (first : r.Evolves base m m' own r') (second : r'.Evolves base m' m'' own r'') :
    r.Evolves base m m'' own r'' where
  proto := second.proto.trans first.proto
  cell := second.cell.trans first.cell
  body := first.body.trans evolves second.body
  tag t tag := second.tag t (first.tag t tag)
  untagged object array := by
    rw [second.untagged (first.kind ▸ object) (first.kind ▸ array), first.untagged object array]
  layout none := first.layout (second.layout none)
  frozen tagged notFree := by
    obtain ⟨layout, migrating, slots⟩ := first.frozen tagged notFree
    obtain ⟨t, tag⟩ := Option.isSome_iff_exists.1 tagged
    have tagged' : r'.tag.isSome := by rw [first.tag t tag]; rfl
    obtain ⟨layout', migrating', slots'⟩ := second.frozen tagged' notFree
    exact ⟨layout'.trans layout, migrating'.trans migrating,
      fun done => (slots' (migrating.trans done)).trans (slots done)⟩
  entry slot := second.entry (first.entry slot)
  forward slot forward := second.forward (first.entry slot) (first.forward slot forward)
  resident slot here := by
    obtain ⟨_, here'⟩ := first.resident slot here
    exact second.resident (first.entry slot) here'
  own {id v} named found := by
    obtain ⟨v', found', kept⟩ := first.own named found
    obtain ⟨v'', found'', kept'⟩ := second.own (types ▸ named) found'
    exact ⟨v'', found'', (kept.mono evolves).trans kept'⟩
  grown {id v} named missing found := by
    -- the property came with the first part of the run or with the second
    cases mid : m'.own? r' id with
    | some v' =>
      obtain ⟨how, shares⟩ := first.grown named missing mid
      exact ⟨how, shares.mono evolves second⟩
    | none =>
      obtain ⟨how, shares⟩ := second.grown (types ▸ named) mid found
      refine ⟨how.imp_left fun untagged => ?_, shares⟩
      cases tag : r.tag with
      | none => rfl
      | some t =>
        rw [first.tag t tag] at untagged
        cases untagged
  hasStore := second.hasStore.trans first.hasStore
  store none name := kept_rel_trans evolves (first.store (second.layout none) name) (second.store none name)

/-- Untyped closures stay what they are. -/
theorem Machine.Imports.mono {base : Nat} {free : Option Ref} {m m' : Machine} {n : Nat} {old : Ref} {t : TypeId}
    (imports : m.Imports n old t) (evolves : Machine.Evolves base free m m') : m'.Imports n old t := by
  obtain ⟨sig, r, shape, count, found, callable, untagged⟩ := imports
  obtain ⟨r', found', record⟩ := evolves.records found
  exact ⟨sig, r', evolves.types ▸ shape, count, found', record.kind ▸ callable,
    (record.of_callable callable).2.trans untagged⟩

theorem Record.Wraps.isCallable {r : Record} {old : Ref} (wraps : r.Wraps old) : r.kind.isCallable := by
  obtain ⟨n, t, body, _⟩ := wraps
  simp [Record.kind, body, RecordKind.isCallable]

theorem Machine.Evolves.trans {base : Nat} {free : Option Ref} {m m' m'' : Machine}
    (first : Evolves base free m m') (second : Evolves base free m' m'') : Evolves base free m m'' where
  valid := second.valid
  frame := by rw [second.frame, first.frame]
  size := first.size.trans second.size
  fresh {ref r} above found := by
    by_cases old : ref ≤ m'.heap.size
    · obtain ⟨r', found'⟩ := Heap.get?_isSome (h := m'.heap) (by omega) old
      obtain ⟨r'', found'', record⟩ := second.records found'
      cases found.symm.trans found''
      obtain ⟨wrapped, wraps⟩ := first.fresh above found'
      exact ⟨wrapped, record.wraps wraps⟩
    · exact second.fresh (by omega) found
  imports {ref r n wrapped t} above found body := by
    by_cases old : ref ≤ m'.heap.size
    · obtain ⟨r', found'⟩ := Heap.get?_isSome (h := m'.heap) (by omega) old
      obtain ⟨r'', found'', record⟩ := second.records found'
      cases found.symm.trans found''
      obtain ⟨_, wraps⟩ := first.fresh above found'
      exact (first.imports above found' ((record.of_callable wraps.isCallable).1 ▸ body)).mono second
    · exact second.imports (by omega) found body
  records {ref r} found := by
    obtain ⟨r', found', record⟩ := first.records found
    obtain ⟨r'', found'', record'⟩ := second.records found'
    exact ⟨r'', found'', record.trans first.types second record'⟩

theorem Heap.update_finished {h : Heap} {ref : Ref} {r : Record} {f : Record → Record}
    (found : h.get? ref = some r) (slots : r.tag.isSome → r.migrating = false → (f r).slots = r.slots)
    (q : Ref) (rq : Record) (at_q : h.get? q = some rq) (tagged : rq.tag.isSome) (done : rq.migrating = false) :
    ∃ rq', (h.update ref f).get? q = some rq' ∧ rq'.slots = rq.slots := by
  by_cases here : q = ref
  · subst here
    cases found.symm.trans at_q
    exact ⟨f r, get?_update_same found f, slots tagged done⟩
  · exact ⟨rq, by rw [get?_update_ne here, at_q], rfl⟩

namespace Machine.Evolves

variable {base : Nat} {free : Option Ref} {m : Machine} {ref : Ref} {r : Record} {f : Record → Record}

/-- Changing one record evolves if that record does and nothing changes in slots that others may share. -/
theorem update (valid : m.Valid) (found : m.heap.get? ref = some r)
    (valid' : Machine.Valid { m with heap := m.heap.update ref f })
    (slots : r.tag.isSome → r.migrating = false → (f r).slots = r.slots)
    (record : r.Evolves base m { m with heap := m.heap.update ref f } (free = some ref) (f r)) :
    Evolves base free m { m with heap := m.heap.update ref f } where
  valid := valid'
  frame := rfl
  size := by simp
  fresh {x rx} above present := by
    have := (Heap.get?_bounds present).2
    simp only [Heap.size_update] at this
    omega
  imports {x rx} _ _ _ above present _ := by
    have := (Heap.get?_bounds present).2
    simp only [Heap.size_update] at this
    omega
  records {x rx} present := by
    by_cases same : x = ref
    · subst same
      cases found.symm.trans present
      exact ⟨f r, Heap.get?_update_same found f, record⟩
    · have present' : (m.heap.update ref f).get? x = some rx := by rw [Heap.get?_update_ne same, present]
      exact ⟨rx, present', .unchanged fun id => valid.own?_eq valid' rfl present present'
        (Heap.update_finished found slots) rfl (fun _ _ => rfl) fun _ => rfl⟩

/-- The one kind of record that coercion allocates. -/
theorem add (valid : m.Valid) {n : Nat} {old : Ref} {t : TypeId} (imports : m.Imports n old t)
    (valid' : Machine.Valid { m with heap := m.heap.add (.wrapper n old t) }) :
    Evolves base free m { m with heap := m.heap.add (.wrapper n old t) } where
  valid := valid'
  frame := rfl
  size := by simp
  fresh {x rx} above present := by
    have := (Heap.get?_bounds present).2
    simp only [Heap.size_add] at this
    simp only [Heap.get?_add, show x = m.heap.size + 1 by omega, if_true, Option.some.injEq] at present
    exact ⟨old, present ▸ Record.wrapper_wraps n old t⟩
  imports {x rx _ _ _} above present body := by
    have := (Heap.get?_bounds present).2
    simp only [Heap.size_add] at this
    simp only [Heap.get?_add, show x = m.heap.size + 1 by omega, if_true, Option.some.injEq] at present
    subst present
    cases body
    obtain ⟨sig, r, shape, count, found, callable⟩ := imports
    exact ⟨sig, r, shape, count, Heap.get?_add_old found _, callable⟩
  records {x rx} present := by
    have present' := Heap.get?_add_old present (.wrapper n old t)
    exact ⟨rx, present', .unchanged fun id => valid.own?_eq valid' rfl present present'
      (fun q rq at_q _ _ => ⟨rq, Heap.get?_add_old at_q _, rfl⟩) rfl (fun _ _ => rfl) fun _ => rfl⟩

end Machine.Evolves

/-- A shared property reads as that of the prototype. -/
theorem Machine.Shares.own? {m : Machine} (valid : m.Valid) {ref : Ref} {r : Record} {id : PropId}
    (found : m.heap.get? ref = some r) (shares : m.Shares r id) :
    ∃ q rq w, r.proto = some q ∧ m.heap.get? q = some rq ∧ m.own? r id = some w ∧ m.own? rq id = some w := by
  obtain ⟨_, _, q, rq, i, j, _, _, _, _, proto, at_q, slot, forward, entry⟩ := shares
  obtain ⟨s, w, at_slot, resolves, own⟩ := valid.own?_of_slot found slot
  obtain ⟨s', w', at_slot', resolves', own'⟩ := valid.own?_of_slot at_q entry
  cases forward.symm.trans at_slot
  exact ⟨q, rq, w, proto, at_q, own, (resolves.unique (.forward at_q at_slot' resolves')) ▸ own'⟩

namespace Machine.Evolves

variable {base : Nat} {free : Option Ref} {m m' : Machine}

/-- Every read along prototypes finds what it found before, up to wrapping. A property that is new on a
record is the one that its prototype had all along. -/
theorem lookup? (valid : m.Valid) (evolves : Evolves base free m m') {id : PropId}
    (named : m.types.names.name id ≠ "") {ref : Ref} {r : Record} (found : m.heap.get? ref = some r) :
    Option.Rel (Kept base m'.heap) (m.lookup? ref id) (m'.lookup? ref id) := by
  obtain ⟨l, chain⟩ := valid.chains found
  generalize start : some ref = s at chain
  induction chain generalizing ref r with
  | nil => cases start
  | @cons x rx rest present links ih =>
    cases start
    cases found.symm.trans present
    obtain ⟨r', found', record⟩ := evolves.records found
    rw [valid.lookup?_eq found, evolves.valid.lookup?_eq found']
    have up : ∀ q, rx.proto = some q → Option.Rel (Kept base m'.heap) (m.lookup? q id) (m'.lookup? q id) := by
      intro q proto
      rw [proto] at links
      cases links with
      | cons at_q _ => exact ih at_q (by rw [proto])
    cases before : m.own? rx id with
    | some v =>
      obtain ⟨v', after, kept⟩ := record.own named before
      rw [after]
      exact .some kept
    | none =>
      cases after : m'.own? r' id with
      | some v' =>
        obtain ⟨q, rq, w, proto, at_q, own, own'⟩ := (record.grown named before after).2.own? evolves.valid found'
        cases after.symm.trans own
        have inherited : m'.lookup? q id = some v' := by rw [evolves.valid.lookup?_eq at_q, own']; rfl
        have proto' : rx.proto = some q := record.proto ▸ proto
        rw [proto', ← inherited, record.proto, proto']
        simpa [inherited] using up q proto'
      | none =>
        rw [record.proto]
        cases proto : rx.proto with
        | none => exact .none
        | some q => exact up q proto

/-- Reads go past a record that had no such property, even if it shares one by now. -/
theorem lookup?_skip (evolves : Evolves base free m m') {id : PropId} (named : m.types.names.name id ≠ "") {ref : Ref}
    {r : Record} (found : m.heap.get? ref = some r) (missing : m.own? r id = none) :
    m'.lookup? ref id = r.proto.bind (m'.lookup? · id) := by
  obtain ⟨r', found', record⟩ := evolves.records found
  rw [evolves.valid.lookup?_eq found', record.proto]
  cases after : m'.own? r' id with
  | none => rfl
  | some v =>
    obtain ⟨q, rq, w, proto, at_q, own, own'⟩ := (record.grown named missing after).2.own? evolves.valid found'
    cases after.symm.trans own
    rw [← record.proto, proto, Option.bind_some, evolves.valid.lookup?_eq at_q, own']
    rfl

end Machine.Evolves

end Gradual
