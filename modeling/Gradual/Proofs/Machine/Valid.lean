import Gradual.Machine.Property
import Gradual.Proofs.Heap.Deque
import Gradual.Proofs.Heap.Record
import Gradual.Proofs.Heap.Walk
import Gradual.Proofs.Machine.Outcome
import Gradual.Proofs.Property.Names
import Gradual.Proofs.Property.Store
import Gradual.Proofs.Types.Relations
import Gradual.Proofs.Value.Word

/-!
What holds of every machine that is only used through its operations. References lead to records of
their kind, prototype chains and forwarding end, layouts number their slots, and tags are proper types
that suit the records they stand on.

Under these conditions a property read cannot fail: it finds the value that `Machine.lookup?` gives.
-/
namespace Gradual

/-- All parts of the type are there, and its properties have names. -/
def TypeStore.Proper (s : TypeStore) (t : TypeId) : Prop :=
  ∀ u, s.graph.Reaches t u →
    (s.graph.node u).WellFormed ∧ ∀ p ∈ (s.graph.node u).props, s.names.name p.id ≠ ""

namespace TypeStore

variable {s : TypeStore} {t u : TypeId}

theorem Proper.wellFormed (h : s.Proper t) : s.graph.WellFormed t := fun u path => (h u path).1

theorem Proper.named (h : s.Proper t) : ∀ p ∈ (s.graph.node t).props, s.names.name p.id ≠ "" :=
  (h t .refl).2

theorem Proper.child (h : s.Proper t) (edge : u ∈ s.graph.children t) : s.Proper u :=
  fun v path => h v (.head edge path)

/-- The type of a property of a proper type. -/
theorem Proper.property (h : s.Proper t) {p : Property} (member : p ∈ (s.graph.node t).props) :
    ∃ u, p.type = some u ∧ s.Proper u := by
  have formed := h.wellFormed.node
  obtain ⟨ps, shape⟩ := Node.object_of_mem_props member
  rw [shape] at formed member
  obtain ⟨u, type⟩ := Option.isSome_iff_exists.1 (formed.2 p member)
  refine ⟨u, type, h.child ?_⟩
  rw [Graph.children, shape]
  exact List.mem_filterMap.2 ⟨p, member, type⟩

theorem Proper.element (h : s.Proper t) {elem : Child}
    (shape : s.graph.node t = .array elem ∨ s.graph.node t = .map elem) :
    ∃ u, elem = some u ∧ s.Proper u := by
  have formed := h.wellFormed.node
  have some_elem : elem.isSome := by
    rcases shape with shape | shape <;> (rw [shape] at formed; exact formed)
  obtain ⟨u, rfl⟩ := Option.isSome_iff_exists.1 some_elem
  refine ⟨u, rfl, h.child ?_⟩
  rcases shape with shape | shape <;> simp [Graph.children, shape, Node.children]

end TypeStore

/-- Names that are not empty belong to one id. -/
theorem NameTable.name_inj {t : NameTable} (distinct : t.names.toList.Nodup) {i j : PropId}
    (named : t.name i ≠ "") (same : t.name i = t.name j) : i = j := by
  have at_place {k : Nat} (h : t.name k ≠ "") : t.name k = t.names.toList.get ⟨k, lt_size_of_name h⟩ := by
    have : k < t.names.size := lt_size_of_name h
    simp [name, this]
  have equal := (at_place named).symm.trans (same.trans (at_place (same ▸ named)))
  exact congrArg Fin.val (List.nodup_iff_injective_get.1 distinct equal)

namespace Heap

/-- The word is a value, and a reference among values leads to a record of its kind. -/
def Genuine (h : Heap) (w : Word) : Prop :=
  ∃ v, w.decode? = some v ∧ ∀ ref, v.ref? = some ref → ∃ r, h.get? ref = some r ∧ r.value ref = v

end Heap

theorem Record.value_congr {r r' : Record} (same : r'.kind = r.kind) (ref : Ref) :
    r'.value ref = r.value ref := by
  unfold value
  rw [same]

namespace Heap

variable {h h' : Heap} {w : Word}

theorem Genuine.transfer (genuine : h.Genuine w)
    (kinds : ∀ ref r, h.get? ref = some r → ∃ r', h'.get? ref = some r' ∧ r'.kind = r.kind) :
    h'.Genuine w := by
  obtain ⟨v, known, leads⟩ := genuine
  refine ⟨v, known, fun ref is_ref => ?_⟩
  obtain ⟨r, found, value⟩ := leads ref is_ref
  obtain ⟨r', found', same⟩ := kinds ref r found
  exact ⟨r', found', (Record.value_congr same ref).trans value⟩

theorem genuine_undefined : h.Genuine Word.undefined := ⟨.undefined, by simp, by simp [Value.ref?]⟩

theorem genuine_null : h.Genuine Word.null := ⟨.null, by simp, by simp [Value.ref?]⟩

theorem genuine_ofInt (n : Int32) : h.Genuine (Word.ofInt n) := ⟨.int n, Word.ofInt_decode? n, by simp [Value.ref?]⟩

theorem Genuine.record {v : Value} {ref : Ref} (genuine : h.Genuine w) (known : w.decode? = some v)
    (is_ref : v.ref? = some ref) : ∃ r, h.get? ref = some r ∧ r.value ref = v := by
  obtain ⟨v', known', leads⟩ := genuine
  cases known.symm.trans known'
  exact leads ref is_ref

theorem Genuine.object (genuine : h.Genuine w) {ref : Ref} (known : w.decode? = some (.object ref)) :
    ∃ r, h.get? ref = some r ∧ (r.kind = .object ∨ r.kind = .array) := by
  obtain ⟨r, found, value⟩ := genuine.record known rfl
  refine ⟨r, found, ?_⟩
  unfold Record.value at value
  cases kind : r.kind <;> simp_all

theorem Genuine.closure (genuine : h.Genuine w) {ref : Ref} (known : w.decode? = some (.closure ref)) :
    ∃ r, h.get? ref = some r ∧ r.kind.isCallable := by
  obtain ⟨r, found, value⟩ := genuine.record known rfl
  refine ⟨r, found, ?_⟩
  unfold Record.value at value
  cases kind : r.kind <;> simp_all [RecordKind.isCallable]

end Heap

/-- Reference words to records decode to the values they show. -/
theorem Record.word_decode? (r : Record) {ref : Nat} (issued : ref ≠ 0) (fits : ref ≤ maxRef) :
    (r.word ref).decode? = some (r.value ref) := by
  unfold word value
  cases r.kind with
  | object | array => exact Word.objectRef_decode? issued fits
  | closure | untypedClosure | constructor => exact Word.closureRef_decode? issued fits
  | string => exact Word.stringRef_decode? issued fits
  | box => exact Word.boxRef_decode? issued fits

namespace Record

def Suits (r : Record) : Node → Prop
  | .object _ => r.kind = .object ∧ r.layout.isSome
  | .map _ => r.kind = .object ∧ r.layout = none ∧ r.migrating = false
  | .array _ => r.kind = .array ∧ r.layout = none ∧ r.migrating = false
  | .closure _ => (r.kind = .closure ∨ r.kind = .constructor) ∧ r.layout = none ∧ r.migrating = false
  | .prim _ | .odd _ => False

/-- Properties have slots one after the other, and the table is frozen unless the record is still
being given its layout. -/
structure LaidOut (r : Record) (l : FixedLayout) : Prop where
  ids : (l.table.entries.map (·.1)).Nodup
  numbered : l.table.entries.map (·.2) = List.range l.table.entries.length
  fits : l.table.entries.length ≤ r.slots.size
  published : l.table.published = !r.migrating

structure Valid (s : TypeStore) (h : Heap) (r : Record) : Prop where
  slots : ∀ (i : Nat) (w : Word), r.slots[i]? = some (.here w) → h.Genuine w
  store : ∀ d, r.dyn = some d → d.Placed
  entries : ∀ name w, r.dynGet? name = some w → h.Genuine w
  elems : ∀ d, r.elems? = some d → d.Housed ∧ ∀ i, h.Genuine (d.get i)
  cell : h.Genuine r.cell
  prototype : ∀ q, r.prototype? = some q → ∃ rq, h.get? q = some rq
  tagged : ∀ t, r.tag = some t → s.Proper t ∧ r.Suits (s.graph.node t)
  untagged : r.tag = none → r.layout = none ∧ r.migrating = false
  layout : ∀ l, r.layout = some l → r.LaidOut l
  named : ∀ {id : PropId} {i : Nat}, r.slotOf? id = some i → s.names.name id ≠ ""

end Record

/-- The record with other contents, in the same slots and of the same kind. -/
structure Record.Refilled (h : Heap) (r r' : Record) : Prop where
  eq : r' = { r with body := r'.body, dyn := r'.dyn, cell := r'.cell }
  kind : r'.kind = r.kind
  closure : r.kind.isCallable → r'.body = r.body
  size : r'.slots.size = r.slots.size
  slots : ∀ (i : Nat) (w : Word), r'.slots[i]? = some (.here w) → h.Genuine w
  forwards : ∀ (i : Nat) (q : Ref) (j : Nat), r'.slots[i]? = some (.forward q j) → r.slots[i]? = some (.forward q j)
  store : ∀ d, r'.dyn = some d → d.Placed
  entries : ∀ name w, r'.dynGet? name = some w → h.Genuine w
  elems : ∀ d, r'.elems? = some d → d.Housed ∧ ∀ i, h.Genuine (d.get i)
  cell : h.Genuine r'.cell
  prototype : r'.prototype? = r.prototype?

namespace Record.Refilled

variable {s : TypeStore} {h : Heap} {r r' : Record}

theorem slotOf? (refilled : r.Refilled h r') (y : PropId) : r'.slotOf? y = r.slotOf? y := by
  rw [refilled.eq]
  rfl

theorem tag (refilled : r.Refilled h r') : r'.tag = r.tag := by rw [refilled.eq]

theorem proto (refilled : r.Refilled h r') : r'.proto = r.proto := by rw [refilled.eq]

theorem migrating (refilled : r.Refilled h r') : r'.migrating = r.migrating := by rw [refilled.eq]

theorem valid (refilled : r.Refilled h r') (valid : r.Valid s h) : r'.Valid s h where
  slots := refilled.slots
  store := refilled.store
  entries := refilled.entries
  elems := refilled.elems
  cell := refilled.cell
  prototype := refilled.prototype ▸ valid.prototype
  tagged t known := by
    have kind := refilled.kind
    rw [refilled.eq] at known kind ⊢
    obtain ⟨proper, suits⟩ := valid.tagged t known
    refine ⟨proper, ?_⟩
    unfold Record.Suits at suits ⊢
    rw [kind]
    exact suits
  untagged none := by
    rw [refilled.eq] at none ⊢
    exact valid.untagged none
  layout l here := by
    have size := refilled.size
    rw [refilled.eq] at here size ⊢
    have laid := valid.layout l here
    exact ⟨laid.ids, laid.numbered, size.symm ▸ laid.fits, laid.published⟩
  named {id i} slot := valid.named ((refilled.slotOf? id).symm.trans slot)

end Record.Refilled

namespace Record.Valid

variable {s : TypeStore} {h : Heap} {r : Record} {w : Word}

/-- A store with other entries. -/
theorem restore {d : Option PropertyStore} (old : r.Valid s h) (store : ∀ e, d = some e → e.Placed)
    (entries : ∀ name w, Record.dynGet? { r with dyn := d } name = some w → h.Genuine w) :
    r.Refilled h { r with dyn := d } :=
  ⟨rfl, rfl, fun _ => rfl, rfl, old.slots, fun _ _ _ slot => slot, store, entries, old.elems, old.cell, rfl⟩

theorem withStore (old : r.Valid s h) (hash : String → UInt64) : r.Refilled h (r.withStore hash) :=
  old.restore (Record.withStore_placed hash old.store) fun name w present =>
    old.entries name w ((Record.dynGet?_withStore hash name).symm.trans present)

/-- A store where some names have a new value. -/
theorem enter {d : Option PropertyStore} {P : String → Prop} [DecidablePred P] (old : r.Valid s h)
    (genuine : h.Genuine w) (store : ∀ e, d = some e → e.Placed)
    (read : ∀ x, Record.dynGet? { r with dyn := d } x = if P x then some w else r.dynGet? x) :
    r.Refilled h { r with dyn := d } := by
  refine old.restore store fun x v present => ?_
  rw [read] at present
  split at present
  · cases present
    exact genuine
  · exact old.entries x v present

theorem dynPut (old : r.Valid s h) (genuine : h.Genuine w) (name : String) :
    r.Refilled h (r.dynPut name w) :=
  old.enter genuine (r.dynPut_placed old.store name w) (r.dynGet?_dynPut old.store name w)

theorem dynErase (old : r.Valid s h) (name : String) : r.Refilled h (r.dynErase name).1 := by
  rw [Record.dynErase_eq]
  refine old.restore (r.dynErase_placed old.store name) fun x v present => ?_
  have present := (r.dynGet?_dynErase old.store name x).symm.trans (Record.dynErase_eq ▸ present)
  split at present
  · cases present
  · exact old.entries x v present

theorem setElems {d d' : Deque} (old : r.Valid s h) (elems : r.elems? = some d) (housed : d'.Housed)
    (genuine : ∀ i, h.Genuine (d'.get i)) : r.Refilled h { r with body := .array d' } := by
  have body := Record.elems?_eq_some.1 elems
  have slots : Record.slots { r with body := .array d' } = r.slots := by simp [Record.slots, body]
  refine ⟨rfl, by simp [Record.kind, body], by simp [Record.kind, body, RecordKind.isCallable], by rw [slots],
    slots.symm ▸ old.slots, fun _ _ _ slot => slots ▸ slot, old.store, old.entries, fun e made => ?_, old.cell,
    by simp [Record.prototype?, body]⟩
  cases made
  exact ⟨housed, genuine⟩

theorem setSlot (old : r.Valid s h) (genuine : h.Genuine w) (i : Nat) : r.Refilled h (r.setSlot i (.here w)) := by
  have slots := r.setSlot_slots i (.here w)
  have read (k : Nat) (x : Slot) (here : (r.setSlot i (.here w)).slots[k]? = some x) :
      x = .here w ∨ r.slots[k]? = some x := by
    rw [slots, Array.getElem?_setIfInBounds] at here
    split at here
    · split at here
      · exact .inl (Option.some.inj here).symm
      · cases here
    · exact .inr here
  refine ⟨by rw [Record.setSlot_eq], r.setSlot_kind i _, fun callable => ?_,
    by rw [slots, Array.size_setIfInBounds], fun k v here => ?_, fun k q j forward => ?_, ?_, ?_, ?_, ?_, ?_⟩
  · unfold Record.setSlot
    cases body : r.body <;> simp [Record.kind, body, RecordKind.isCallable] at callable ⊢
  · rcases read k _ here with same | here
    · cases same
      exact genuine
    · exact old.slots k v here
  · rcases read k _ forward with impossible | forward
    · cases impossible
    · exact forward
  · rw [Record.setSlot_eq]
    exact old.store
  · rw [Record.setSlot_eq]
    exact old.entries
  · rw [Record.setSlot_elems?]
    exact old.elems
  · rw [Record.setSlot_eq]
    exact old.cell
  · unfold Record.setSlot Record.prototype?
    cases body : r.body <;> simp [body]

end Record.Valid

/-- A property whose slot forwards has a slot of its own in the record it forwards to. -/
def Heap.Aligned (h : Heap) (r : Record) : Prop :=
  ∀ (id : PropId) (i : Nat) (q : Ref) (j : Nat), r.slotOf? id = some i → r.slots[i]? = some (.forward q j) →
    ∃ rq, h.get? q = some rq ∧ rq.slotOf? id = some j

structure Machine.Valid (m : Machine) : Prop where
  names : m.types.names.names.toList.Nodup
  room : m.heap.size ≤ maxRef
  records : ∀ {ref r}, m.heap.get? ref = some r → r.Valid m.types m.heap
  chains : ∀ {ref r}, m.heap.get? ref = some r → ∃ l, m.heap.Chain (some ref) l
  forwarding : ∃ rank, m.heap.Forwarding rank
  aligned : ∀ {ref r}, m.heap.get? ref = some r → m.heap.Aligned r

/-- Only heap and types can be invalid. -/
theorem Machine.Valid.reframe {m n : Machine} (valid : m.Valid) (heap : n.heap = m.heap) (types : n.types = m.types) :
    n.Valid := by
  cases m
  cases n
  cases heap
  cases types
  exact ⟨valid.names, valid.room, valid.records, valid.chains, valid.forwarding, valid.aligned⟩

namespace Record

variable {r : Record} {id : PropId} {i : Nat}

theorem slotOf?_eq_some : r.slotOf? id = some i ↔ ∃ l, r.layout = some l ∧ l.table.slot? id = some i :=
  Option.bind_eq_some_iff

theorem mem_of_slot? {l : Layout Nat} (found : l.slot? id = some i) : (id, i) ∈ l.entries := by
  obtain ⟨before, after, split, _⟩ := List.lookup_eq_some_iff.1 found
  rw [split]
  simp

theorem LaidOut.slot_lt {l : FixedLayout} (laid : r.LaidOut l) (found : l.table.slot? id = some i) :
    i < l.table.entries.length := by
  have member : i ∈ l.table.entries.map (·.2) := List.mem_map.2 ⟨_, mem_of_slot? found, rfl⟩
  rw [laid.numbered] at member
  exact List.mem_range.1 member

theorem LaidOut.slot_inj {l : FixedLayout} (laid : r.LaidOut l) {id' : PropId}
    (found : l.table.slot? id = some i) (found' : l.table.slot? id' = some i) : id = id' := by
  have distinct : (l.table.entries.map (·.2)).Nodup := laid.numbered ▸ List.nodup_range
  have := List.inj_on_of_nodup_map distinct (mem_of_slot? found) (mem_of_slot? found') rfl
  exact congrArg Prod.fst this

theorem Valid.slot_lt {s : TypeStore} {h : Heap} (valid : r.Valid s h) (found : r.slotOf? id = some i) :
    i < r.fixedSize ∧ i < r.slots.size := by
  obtain ⟨l, layout, slot⟩ := slotOf?_eq_some.1 found
  have laid := valid.layout l layout
  have below := laid.slot_lt slot
  refine ⟨?_, Nat.lt_of_lt_of_le below laid.fits⟩
  simpa [fixedSize, layout, Layout.size] using below

theorem Valid.slot_inj {s : TypeStore} {h : Heap} (valid : r.Valid s h) {id' : PropId}
    (found : r.slotOf? id = some i) (found' : r.slotOf? id' = some i) : id = id' := by
  obtain ⟨l, layout, slot⟩ := slotOf?_eq_some.1 found
  obtain ⟨l', layout', slot'⟩ := slotOf?_eq_some.1 found'
  cases layout.symm.trans layout'
  exact (valid.layout l layout).slot_inj slot slot'

/-- A record with a fixed slot has a layout and so a tag. -/
theorem Valid.tag_of_slot {s : TypeStore} {h : Heap} (valid : r.Valid s h) (found : r.slotOf? id = some i) :
    r.tag.isSome := by
  obtain ⟨l, layout, _⟩ := slotOf?_eq_some.1 found
  cases tag : r.tag with
  | some t => rfl
  | none =>
    have := (valid.untagged tag).1
    rw [layout] at this
    cases this

end Record

namespace Machine

variable {m : Machine}

/-- An own property: in its fixed slot if it has one, else in the store. -/
def own? (m : Machine) (r : Record) (id : PropId) : Option Word :=
  match r.slotOf? id with
  | some i => r.slots[i]?.bind m.heap.resolve
  | none => r.dynGet? (m.types.names.name id)

def lookup? (m : Machine) (ref : Ref) (id : PropId) : Option Word :=
  (m.heap.chain (some ref)).findSome? fun q => (m.heap.get? q).bind (m.own? · id)

theorem own?_of_store {r : Record} {id : PropId} (free : r.slotOf? id = none) :
    m.own? r id = r.dynGet? (m.types.names.name id) := by
  rw [own?, free]

theorem Valid.own?_of_slot (valid : m.Valid) {ref : Ref} {r : Record} (found : m.heap.get? ref = some r)
    {id : PropId} {i : Nat} (slot : r.slotOf? id = some i) :
    ∃ s w, r.slots[i]? = some s ∧ m.heap.Resolves s w ∧ m.own? r id = some w := by
  have inside := ((valid.records found).slot_lt slot).2
  have at_slot : r.slots[i]? = some r.slots[i] := Array.getElem?_eq_getElem inside
  obtain ⟨rank, fwd⟩ := valid.forwarding
  obtain ⟨w, resolves⟩ := fwd.resolves found at_slot
  refine ⟨_, w, at_slot, resolves, ?_⟩
  have resolved := (fwd.resolve_eq_some found at_slot).2 resolves
  simp only [own?, slot, at_slot, Option.bind_some, resolved]

theorem Valid.resolves_genuine (valid : m.Valid) {s : Slot} {w : Word} (resolves : m.heap.Resolves s w)
    {ref : Ref} {r : Record} {i : Nat} (found : m.heap.get? ref = some r) (slot : r.slots[i]? = some s) :
    m.heap.Genuine w := by
  induction resolves generalizing ref r i with
  | here => exact (valid.records found).slots i _ slot
  | forward present inner _ ih => exact ih present inner

theorem Valid.own?_genuine (valid : m.Valid) {ref : Ref} {r : Record} (found : m.heap.get? ref = some r)
    {id : PropId} {w : Word} (own : m.own? r id = some w) : m.heap.Genuine w := by
  cases slot : r.slotOf? id with
  | none =>
    rw [own?_of_store slot] at own
    exact (valid.records found).entries _ w own
  | some i =>
    obtain ⟨s, v, at_slot, resolves, own'⟩ := valid.own?_of_slot found slot
    cases own.symm.trans own'
    exact valid.resolves_genuine resolves found at_slot

/-- A read looks at the record itself and then at its prototype. -/
theorem Valid.lookup?_eq (valid : m.Valid) {ref : Ref} {r : Record} (found : m.heap.get? ref = some r)
    (id : PropId) : m.lookup? ref id = (m.own? r id).or (r.proto.bind (m.lookup? · id)) := by
  obtain ⟨l, chain⟩ := valid.chains found
  unfold lookup?
  rw [chain.chain_eq]
  cases chain with
  | @cons _ r' rest found' links =>
    cases found.symm.trans found'
    rw [List.findSome?_cons, found, Option.bind_some]
    cases m.own? r id with
    | some w => rfl
    | none =>
      cases proto : r.proto with
      | none =>
        rw [proto] at links
        cases links
        rfl
      | some q =>
        rw [proto] at links
        simp [links.chain_eq]

end Machine

theorem Record.Valid.transfer {s : TypeStore} {h h' : Heap} {r : Record} (valid : r.Valid s h)
    (kinds : ∀ ref r, h.get? ref = some r → ∃ r', h'.get? ref = some r' ∧ r'.kind = r.kind) : r.Valid s h' where
  slots i w here := (valid.slots i w here).transfer kinds
  store := valid.store
  entries name w present := (valid.entries name w present).transfer kinds
  elems d elems := ⟨(valid.elems d elems).1, fun i => ((valid.elems d elems).2 i).transfer kinds⟩
  cell := valid.cell.transfer kinds
  prototype q link := by
    obtain ⟨rq, at_q⟩ := valid.prototype q link
    obtain ⟨rq', at_q', _⟩ := kinds q rq at_q
    exact ⟨rq', at_q'⟩
  tagged := valid.tagged
  untagged := valid.untagged
  layout := valid.layout
  named := valid.named

namespace Heap

variable {h : Heap} {ref : Ref} {r : Record} {f : Record → Record}

theorem update_kinds (found : h.get? ref = some r) (kind : (f r).kind = r.kind) (x : Ref) (rx : Record)
    (present : h.get? x = some rx) : ∃ r', (h.update ref f).get? x = some r' ∧ r'.kind = rx.kind := by
  by_cases same : x = ref
  · subst same
    cases found.symm.trans present
    exact ⟨f r, get?_update_same found f, kind⟩
  · exact ⟨rx, by rw [get?_update_ne same, present], rfl⟩

theorem add_kinds (new : Record) (x : Ref) (rx : Record) (present : h.get? x = some rx) :
    ∃ r', (h.add new).get? x = some r' ∧ r'.kind = rx.kind :=
  ⟨rx, get?_add_old present new, rfl⟩

theorem Aligned.update {x : Record} (aligned : h.Aligned x) (found : h.get? ref = some r)
    (entries : ∀ {id : PropId} {i : Nat}, r.slotOf? id = some i → (f r).slotOf? id = some i) :
    (h.update ref f).Aligned x := by
  intro id i q j slot forward
  obtain ⟨rq, at_q, entry⟩ := aligned id i q j slot forward
  by_cases same : q = ref
  · subst same
    cases found.symm.trans at_q
    exact ⟨f r, get?_update_same found f, entries entry⟩
  · exact ⟨rq, (get?_update_ne same f).trans at_q, entry⟩

/-- A record may take new forwarding slots while it is being given its layout: nothing forwards to it
yet, so its rank can be raised above all others. -/
theorem Forwarding.update {rank : Ref → Nat} (fwd : h.Forwarding rank) (found : h.get? ref = some r)
    (finished : r.tag.isSome → r.migrating = false →
      (f r).tag.isSome ∧ (f r).migrating = false ∧ r.slots.size ≤ (f r).slots.size)
    (forwards : ∀ (i : Nat) (q : Ref) (j : Nat), (f r).slots[i]? = some (.forward q j) →
      (∃ i' : Nat, r.slots[i']? = some (.forward q j)) ∨ (r.migrating = true ∧ h.Target q j)) :
    ∃ rank', (h.update ref f).Forwarding rank' := by
  -- a target of the old heap is one of the new heap
  have target_stays {q : Ref} {j : Nat} (target : h.Target q j) : (h.update ref f).Target q j := by
    obtain ⟨rq, at_q, inside, tagged, done⟩ := target
    by_cases same : q = ref
    · subst same
      cases found.symm.trans at_q
      obtain ⟨tagged', done', size⟩ := finished tagged done
      exact ⟨f r, get?_update_same found f, Nat.lt_of_lt_of_le inside size, tagged', done'⟩
    · exact ⟨rq, by rw [get?_update_ne same, at_q], inside, tagged, done⟩
  by_cases moving : r.migrating = true
  · let top := (Finset.Icc 1 h.size).sup rank
    refine ⟨fun x => if x = ref then top + 1 else rank x, ⟨fun {x rx i q j} present slot => ?_⟩⟩
    have lower {q : Ref} {j : Nat} (target : h.Target q j) : q ≠ ref ∧ rank q ≤ top := by
      obtain ⟨rq, at_q, _, _, done⟩ := target
      refine ⟨?_, Finset.le_sup (f := rank) (Finset.mem_Icc.2 (get?_bounds at_q))⟩
      rintro rfl
      cases found.symm.trans at_q
      rw [moving] at done
      cases done
    by_cases same : x = ref
    · subst same
      cases (get?_update_same found f).symm.trans present
      have target : h.Target q j := by
        rcases forwards i q j slot with ⟨i', old⟩ | ⟨_, new⟩
        · exact (fwd.target found old).1
        · exact new
      obtain ⟨different, bounded⟩ := lower target
      exact ⟨target_stays target, by simp [different]; omega⟩
    · rw [get?_update_ne same] at present
      obtain ⟨target, less⟩ := fwd.target present slot
      exact ⟨target_stays target, by simpa [same, (lower target).1] using less⟩
  · refine ⟨rank, ⟨fun {x rx i q j} present slot => ?_⟩⟩
    have old : ∃ rx' i', h.get? x = some rx' ∧ rx'.slots[(i' : Nat)]? = some (.forward q j) := by
      by_cases same : x = ref
      · subst same
        cases (get?_update_same found f).symm.trans present
        rcases forwards i q j slot with ⟨i', old⟩ | ⟨moving', _⟩
        · exact ⟨r, i', found, old⟩
        · exact absurd moving' moving
      · exact ⟨rx, i, by rwa [get?_update_ne same] at present, slot⟩
    obtain ⟨rx', i', present', slot'⟩ := old
    obtain ⟨target, less⟩ := fwd.target present' slot'
    exact ⟨target_stays target, less⟩

end Heap

namespace Machine.Valid

variable {m : Machine} {ref : Ref} {r : Record} {f : Record → Record}

/-- Updating one record keeps the machine valid if the new record is, and if what others rely on stays:
its kind, and its slots if it is finished. -/
theorem update_linked (valid : m.Valid) (found : m.heap.get? ref = some r) (record : (f r).Valid m.types m.heap)
    (kind : (f r).kind = r.kind)
    (chains : ∀ {x rx}, (m.heap.update ref f).get? x = some rx → ∃ l, (m.heap.update ref f).Chain (some x) l)
    (finished : r.tag.isSome → r.migrating = false →
      (f r).tag.isSome ∧ (f r).migrating = false ∧ r.slots.size ≤ (f r).slots.size)
    (forwards : ∀ (i : Nat) (q : Ref) (j : Nat), (f r).slots[i]? = some (.forward q j) →
      (∃ i' : Nat, r.slots[i']? = some (.forward q j)) ∨ (r.migrating = true ∧ m.heap.Target q j))
    (entries : ∀ {id : PropId} {i : Nat}, r.slotOf? id = some i → (f r).slotOf? id = some i)
    (aligned : m.heap.Aligned (f r)) :
    Machine.Valid { m with heap := m.heap.update ref f } where
  names := valid.names
  room := by simpa using valid.room
  records {x rx} present := by
    have kinds := Heap.update_kinds found kind
    by_cases same : x = ref
    · subst same
      cases (Heap.get?_update_same found f).symm.trans present
      exact record.transfer kinds
    · exact (valid.records ((Heap.get?_update_ne same f).symm.trans present)).transfer kinds
  chains := chains
  forwarding := by
    obtain ⟨rank, fwd⟩ := valid.forwarding
    exact fwd.update found finished forwards
  aligned {x rx} present := by
    by_cases same : x = ref
    · subst same
      cases (Heap.get?_update_same found f).symm.trans present
      exact aligned.update found entries
    · exact (valid.aligned ((Heap.get?_update_ne same f).symm.trans present)).update found entries

theorem update (valid : m.Valid) (found : m.heap.get? ref = some r) (record : (f r).Valid m.types m.heap)
    (kind : (f r).kind = r.kind) (proto : (f r).proto = r.proto)
    (finished : r.tag.isSome → r.migrating = false →
      (f r).tag.isSome ∧ (f r).migrating = false ∧ r.slots.size ≤ (f r).slots.size)
    (forwards : ∀ (i : Nat) (q : Ref) (j : Nat), (f r).slots[i]? = some (.forward q j) →
      (∃ i' : Nat, r.slots[i']? = some (.forward q j)) ∨ (r.migrating = true ∧ m.heap.Target q j))
    (entries : ∀ {id : PropId} {i : Nat}, r.slotOf? id = some i → (f r).slotOf? id = some i)
    (aligned : m.heap.Aligned (f r)) :
    Machine.Valid { m with heap := m.heap.update ref f } := by
  have links (x : Ref) (rx : Record) (present : m.heap.get? x = some rx) :
      ∃ r', (m.heap.update ref f).get? x = some r' ∧ r'.proto = rx.proto := by
    by_cases same : x = ref
    · subst same
      cases found.symm.trans present
      exact ⟨f r, Heap.get?_update_same found f, proto⟩
    · exact ⟨rx, by rw [Heap.get?_update_ne same, present], rfl⟩
  refine update_linked valid found record kind (fun {x rx} present => ?_) finished forwards entries aligned
  have old : ∃ rx, m.heap.get? x = some rx := by
    obtain ⟨issued, inside⟩ := Heap.get?_bounds present
    exact Heap.get?_isSome issued (by simpa using inside)
  obtain ⟨_, old⟩ := old
  obtain ⟨l, chain⟩ := valid.chains old
  exact ⟨l, chain.transfer fun x _ rx => links x rx⟩

theorem refill (valid : m.Valid) (found : m.heap.get? ref = some r) (refilled : r.Refilled m.heap (f r)) :
    Machine.Valid { m with heap := m.heap.update ref f } := by
  refine valid.update found (refilled.valid (valid.records found)) refilled.kind refilled.proto
    (fun tagged done => ?_) (fun i q j forward => .inl ⟨i, refilled.forwards i q j forward⟩)
    (fun {id i} slot => (refilled.slotOf? id).trans slot) fun id i q j slot forward =>
      valid.aligned found id i q j ((refilled.slotOf? id).symm.trans slot) (refilled.forwards i q j forward)
  rw [refilled.size, refilled.tag, refilled.migrating]
  exact ⟨tagged, done, Nat.le_refl _⟩

/-- A new record without prototype and forwarding slots. -/
theorem add (valid : m.Valid) {r : Record} (record : r.Valid m.types m.heap) (proto : r.proto = none)
    (forwards : ∀ (i : Nat) (q : Ref) (j : Nat), r.slots[i]? ≠ some (.forward q j))
    (room : m.heap.size + 1 ≤ maxRef) : Machine.Valid { m with heap := m.heap.add r } where
  names := valid.names
  room := by simpa using room
  records {x rx} present := by
    rw [Heap.get?_add] at present
    split at present
    · cases present
      exact record.transfer (Heap.add_kinds r)
    · exact (valid.records present).transfer (Heap.add_kinds r)
  chains {x rx} present := by
    by_cases last : x = m.heap.size + 1
    · subst last
      have : rx = r := by simpa [Heap.get?_add] using present.symm
      subst this
      have links : (m.heap.add rx).Chain rx.proto [] := proto.symm ▸ Heap.Chain.nil
      exact ⟨_, .cons present links⟩
    · simp only [Heap.get?_add, if_neg last] at present
      obtain ⟨l, chain⟩ := valid.chains present
      exact ⟨l, chain.transfer fun x _ rx old => ⟨rx, Heap.get?_add_old old r, rfl⟩⟩
  forwarding := by
    obtain ⟨rank, fwd⟩ := valid.forwarding
    refine ⟨rank, ⟨fun {x rx i q j} present slot => ?_⟩⟩
    rw [Heap.get?_add] at present
    split at present
    · cases present
      exact absurd slot (forwards i q j)
    · obtain ⟨⟨rq, at_q, finished⟩, less⟩ := fwd.target present slot
      exact ⟨⟨rq, Heap.get?_add_old at_q r, finished⟩, less⟩
  aligned {x rx} present id i q j slot forward := by
    rw [Heap.get?_add] at present
    split at present
    · cases present
      exact absurd forward (forwards i q j)
    · obtain ⟨rq, at_q, entry⟩ := valid.aligned present id i q j slot forward
      exact ⟨rq, Heap.get?_add_old at_q r, entry⟩

end Machine.Valid

namespace Run

variable {m : Machine} {err : Fault → Machine → Prop}

@[simp] theorem ends_openStore {ok : Unit → Machine → Prop} (ref : Ref) :
    Ends (openStore ref) m ok err ↔ ok () { m with heap := m.heap.update ref (·.withStore m.hash) } := Iff.rfl

theorem ends_readSlot (valid : m.Valid) {ref : Ref} {r : Record} (found : m.heap.get? ref = some r) {i : Nat}
    {s : Slot} (slot : r.slots[i]? = some s) {w : Word} (resolves : m.heap.Resolves s w)
    {ok : Word → Machine → Prop} : Ends (readSlot r i) m ok err ↔ ok w m := by
  obtain ⟨rank, fwd⟩ := valid.forwarding
  have resolved := (fwd.resolve_eq_some found slot).2 resolves
  simp [readSlot, slot, resolved]

theorem ends_lookupOwn (valid : m.Valid) {ref : Ref} {r : Record} (found : m.heap.get? ref = some r) {id : PropId}
    (named : m.types.names.name id ≠ "") {ok : Option Word → Machine → Prop} :
    Ends (lookupOwn r id) m ok err ↔ ok (m.own? r id) m := by
  cases slot : r.slotOf? id with
  | some i =>
    obtain ⟨s, w, at_slot, resolves, own⟩ := valid.own?_of_slot found slot
    simp only [lookupOwn, slot, ends_bind, ends_readSlot valid found at_slot resolves, ends_pure, own]
  | none =>
    rw [Machine.own?_of_store slot]
    simp only [lookupOwn, slot]
    cases store : r.dyn with
    | none => simp [Record.dynGet?, store]
    | some d => simp [ends_propName named]

theorem ends_lookupAlong (valid : m.Valid) {id : PropId} (named : m.types.names.name id ≠ "")
    {start : Option Ref} {l : List Ref} (chain : m.heap.Chain start l) {ok : Word → Machine → Prop} :
    Ends (lookupAlong id l) m ok err ↔
      ok ((l.findSome? fun q => (m.heap.get? q).bind (m.own? · id)).getD Word.undefined) m := by
  induction chain with
  | nil => simp [lookupAlong]
  | cons found _ ih =>
    simp only [lookupAlong, ends_bind, ends_recordAt found, ends_lookupOwn valid found named,
      List.findSome?_cons, found, Option.bind_some]
    cases m.own? _ id with
    | some w => simp
    | none => exact ih

/-- Reading a property of an object or a closure never fails. -/
theorem getProp_eq (valid : m.Valid) {w : Word} {ref : Ref} {r : Record}
    (known : w.decode? = some (.object ref) ∨ w.decode? = some (.closure ref)) (found : m.heap.get? ref = some r)
    {id : PropId} (named : m.types.names.name id ≠ "") :
    getProp w id m = .ok ((m.lookup? ref id).getD Word.undefined) m := by
  obtain ⟨l, chain⟩ := valid.chains found
  apply Ends.eq_ok
  rcases known with known | known <;>
    simp [getProp, propRecord, ends_decode known, ends_recordAt found, chain.chain_eq,
      ends_lookupAlong valid named chain, Machine.lookup?]

theorem ends_record? {w : Word} (genuine : m.heap.Genuine w) {ok : Option (Ref × Record) → Machine → Prop}
    (immediate : ok none m)
    (reference : ∀ ref r, m.heap.get? ref = some r → w.decode? = some (r.value ref) → ok (some (ref, r)) m) :
    Ends (record? w) m ok err := by
  obtain ⟨v, known, leads⟩ := genuine
  simp only [record?, ends_bind, ends_decode known]
  cases is_ref : v.ref? with
  | none => exact immediate
  | some ref =>
    obtain ⟨r, found, value⟩ := leads ref is_ref
    simp only [ends_bind, ends_recordAt found, ends_pure]
    exact reference ref r found (value ▸ known)

theorem ends_describe {w : Word} (genuine : m.heap.Genuine w) {ok : String → Machine → Prop}
    (result : ∀ text, ok text m) : Ends (describe w) m ok err := by
  obtain ⟨v, known, _⟩ := id genuine
  simp only [describe, ends_bind]
  refine ends_record? genuine ?_ fun ref r _ _ => ?_
  · simp only [ends_bind, ends_decode known, ends_pure]
    exact result _
  · simp only [ends_bind, ends_decode known]
    cases r.tag with
    | none => exact result _
    | some t => exact result _

/-- A mismatch is always a violation. -/
theorem ends_mismatch {α : Type} {w : Word} (genuine : m.heap.Genuine w) (t : Child) {ok : α → Machine → Prop}
    (fault : ∀ v, err (.violation v) { m with dirty := true }) : Ends (mismatch w t : Run α) m ok err := by
  simp only [mismatch, ends_bind]
  refine ends_describe genuine fun text => ?_
  simp only [ends_format, ends_violate]
  exact fault _

end Run

end Gradual
