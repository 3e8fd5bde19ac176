import Gradual.Proofs.Heap.Record
import Gradual.Proofs.Heap.Walk
import Mathlib.Logic.Relation

/-!
Single changes to a heap. All that operations do to records is made of these: contents are written, an untyped
record takes a tag, or a tag and a layout that is filled and published, and records are added. `Stored` says which
words are put into properties.

Two facts hold along any number of changes. Kinds, tags and slots stay where they are, and a published layout is
never changed (`Heap.Edits.stays`). All properties hold words that were stored, and a layout belongs to one record
unless it is that of the literals of a type (`Heap.Edits.holds`).
-/
namespace Gradual

inductive Record.Write (Stored : Word → Prop) (r : Record) : Record → Prop where
  | slot (i : Nat) {w : Word} (stored : Stored w) : Write Stored r (r.setSlot i (.here w))
  | share (i : Nat) (owner : Ref) (j : Nat) : Write Stored r (r.setSlot i (.forward owner j))
  | openStore (hash : String → UInt64) : Write Stored r (r.withStore hash)
  | put (name : String) {w : Word} (stored : Stored w) : Write Stored r (r.dynPut name w)
  | erase (name : String) : Write Stored r (r.dynErase name).1
  | elems (d : Deque) : Write Stored r (r.setElems d)
  | cell (w : Word) : Write Stored r { r with cell := w }
  | link (proto : Option Ref) : Write Stored r { r with proto := proto }

/-- A change to the record with handle `ref`. Only untyped records take a tag. -/
inductive Record.Edit (Stored : Word → Prop) (ref : Ref) (r : Record) : Record → Prop where
  | write {r' : Record} (write : r.Write Stored r') : Edit Stored ref r r'
  | tag (untagged : r.tag = none) (t : TypeId) : Edit Stored ref r { r with tag := some t }
  | start (untagged : r.tag = none) (t : TypeId) :
      Edit Stored ref r { r with tag := some t, layout := some ⟨.migrated ref, Layout.empty⟩, migrating := true }
  | install {l : FixedLayout} {table : Layout Nat} {id : PropId} {slot : Nat} (here : r.layout = some l)
      (installed : l.table.install id slot = .ok table) : Edit Stored ref r { r with layout := some { l with table } }
  | publish : Edit Stored ref r { r with layout := r.layout.map fun l => { l with table := l.table.publish } }
  | finish : Edit Stored ref r { r with migrating := false }

def TypeStore.LiteralLayout (s : TypeStore) (t : TypeId) (l : FixedLayout) : Prop :=
  l.origin = .literal t ∧ Layout.ofProperties ((s.graph.node t).props.map (·.id)) = .ok l.table

structure Record.Made (s : TypeStore) (Stored : Word → Prop) (r : Record) : Prop where
  slots : ∀ (i : Nat) (w : Word), r.slots[i]? = some (.here w) → Stored w
  store : r.dyn = none
  layout : ∀ l, r.layout = some l → ∃ t, r.tag = some t ∧ s.LiteralLayout t l

inductive Heap.Edit (s : TypeStore) (Stored : Word → Prop) (h : Heap) : Heap → Prop where
  | update {ref : Ref} {r : Record} {f : Record → Record} (found : h.get? ref = some r)
      (edit : r.Edit Stored ref (f r)) : Edit s Stored h (h.update ref f)
  | add {r : Record} (made : r.Made s Stored) : Edit s Stored h (h.add r)

abbrev Heap.Edits (s : TypeStore) (Stored : Word → Prop) : Heap → Heap → Prop :=
  Relation.ReflTransGen (Heap.Edit s Stored)

variable {s : TypeStore} {Stored : Word → Prop} {ref : Ref} {r r' r'' : Record}

structure FixedLayout.Stays (l l' : FixedLayout) : Prop where
  origin : l'.origin = l.origin
  entries : l.table.entries <+: l'.table.entries
  published : l.table.published = true → l' = l

structure Record.Stays (r r' : Record) : Prop where
  kind : r'.kind = r.kind
  tag : ∀ t, r.tag = some t → r'.tag = some t
  layout : ∀ l, r.layout = some l → ∃ l', r'.layout = some l' ∧ l.Stays l'

namespace FixedLayout.Stays

variable {l l' l'' : FixedLayout}

@[refl] theorem refl (l : FixedLayout) : l.Stays l := ⟨rfl, List.prefix_refl _, fun _ => rfl⟩

theorem trans (first : l.Stays l') (second : l'.Stays l'') : l.Stays l'' where
  origin := second.origin.trans first.origin
  entries := first.entries.trans second.entries
  published closed := by
    obtain rfl := first.published closed
    exact second.published closed

theorem slot? (stays : l.Stays l') {id : PropId} {i : Nat} (here : l.table.slot? id = some i) :
    l'.table.slot? id = some i := by
  obtain ⟨more, entries⟩ := stays.entries
  unfold Layout.slot? at here ⊢
  rw [← entries, List.lookup_append, here]
  rfl

end FixedLayout.Stays

namespace Layout

variable {l table : Layout Nat} {ids : List PropId}

theorem install_eq_ok {id : PropId} {slot : Nat} (installed : l.install id slot = .ok table) :
    l.published = false ∧ l.slot? id = none ∧ table = { l with entries := l.entries ++ [(id, slot)] } := by
  unfold install at installed
  split_ifs at installed with closed taken
  exact ⟨by simpa using closed, by simpa using taken, (Except.ok.inj installed).symm⟩

/-- No property is placed twice. -/
theorem nodup_of_place {n : Nat} (placed : l.place n ids = .ok table) (distinct : (l.entries.map (·.1)).Nodup) :
    (l.entries.map (·.1) ++ ids).Nodup := by
  induction ids generalizing l n with
  | nil => simpa using distinct
  | cons id rest ih =>
    rw [place] at placed
    cases installed : l.install id n with
    | error e =>
      rw [installed] at placed
      cases placed
    | ok grown =>
      rw [installed] at placed
      obtain ⟨_, free, rfl⟩ := install_eq_ok installed
      have fresh := slot?_eq_none.1 free
      have grown := ih placed (by simpa [List.nodup_append] using ⟨distinct, fun x y member same => fresh (by aesop)⟩)
      simpa using grown

theorem ofProperties_eq_ok (made : ofProperties ids = .ok table) : ids.Nodup ∧ table = ⟨ids.zipIdx, true⟩ := by
  have distinct : ids.Nodup := by
    unfold ofProperties at made
    cases placed : empty.place 0 ids with
    | error e =>
      rw [placed] at made
      cases made
    | ok table => simpa [empty] using nodup_of_place placed List.nodup_nil
  rw [ofProperties_eq distinct] at made
  exact ⟨distinct, (Except.ok.inj made).symm⟩

end Layout

theorem TypeStore.LiteralLayout.published {t : TypeId} {l : FixedLayout} (literal : s.LiteralLayout t l) :
    l.table.published = true := by
  rw [(Layout.ofProperties_eq_ok literal.2).2]

namespace Record

@[refl] theorem Stays.refl (r : Record) : r.Stays r := ⟨rfl, fun _ tag => tag, fun l here => ⟨l, here, .refl l⟩⟩

theorem Stays.trans (first : r.Stays r') (second : r'.Stays r'') : r.Stays r'' where
  kind := second.kind.trans first.kind
  tag t here := second.tag t (first.tag t here)
  layout l here := by
    obtain ⟨l', here', stays⟩ := first.layout l here
    obtain ⟨l'', here'', stays'⟩ := second.layout l' here'
    exact ⟨l'', here'', stays.trans stays'⟩

theorem setElems_eq (d : Deque) : r.setElems d = { r with body := (r.setElems d).body } := by
  unfold setElems
  cases r with
  | mk body layout proto dyn tag migrating cell => cases body <;> rfl

theorem setElems_slots (d : Deque) : (r.setElems d).slots = r.slots := by
  unfold setElems slots
  cases body : r.body <;> simp [body]

theorem setElems_kind (d : Deque) : (r.setElems d).kind = r.kind := by
  unfold setElems kind
  cases body : r.body <;> simp [body]

theorem Write.frame (write : r.Write Stored r') : r'.kind = r.kind ∧ r'.tag = r.tag ∧ r'.layout = r.layout := by
  cases write with
  | slot i | share i => exact ⟨setSlot_kind i _, by rw [setSlot_eq], by rw [setSlot_eq]⟩
  | erase name =>
    rw [dynErase_eq]
    exact ⟨rfl, rfl, rfl⟩
  | elems d => exact ⟨setElems_kind d, by rw [setElems_eq], by rw [setElems_eq]⟩
  | openStore | put | cell | link => exact ⟨rfl, rfl, rfl⟩

theorem Edit.stays (edit : r.Edit Stored ref r') (untagged : r.tag = none → r.layout = none) : r.Stays r' := by
  cases edit with
  | write write =>
    obtain ⟨kind, tag, layout⟩ := write.frame
    exact ⟨kind, fun t here => tag.trans here, fun l here => ⟨l, layout.trans here, .refl l⟩⟩
  | tag none t =>
    refine ⟨rfl, fun u here => ?_, fun l here => ⟨l, here, .refl l⟩⟩
    rw [none] at here
    cases here
  | start none t =>
    refine ⟨rfl, fun u here => ?_, fun l here => ?_⟩
    · rw [none] at here
      cases here
    · rw [untagged none] at here
      cases here
  | install here installed =>
    refine ⟨rfl, fun t tag => tag, fun l' here' => ⟨_, rfl, ?_⟩⟩
    cases here.symm.trans here'
    obtain ⟨open', _, rfl⟩ := Layout.install_eq_ok installed
    exact ⟨rfl, List.prefix_append _ _, fun closed => by simp [open'] at closed⟩
  | publish =>
    refine ⟨rfl, fun t tag => tag, fun l here => ⟨{ l with table := l.table.publish }, ?_, ?_⟩⟩
    · simp only [here, Option.map_some]
    · refine ⟨rfl, List.prefix_refl _, fun closed => ?_⟩
      rw [Layout.publish, ← closed]
  | finish => exact ⟨rfl, fun t tag => tag, fun l here => ⟨l, here, .refl l⟩⟩

structure Contents (Stored : Word → Prop) (r : Record) : Prop where
  slots : ∀ (i : Nat) (w : Word), r.slots[i]? = some (.here w) → Stored w
  store : ∀ d, r.dyn = some d → d.Placed
  entries : ∀ name w, r.dynGet? name = some w → Stored w

/-- An untyped record has no layout. Any other has one of its own, or the one of the literals of its type. -/
structure Laid (s : TypeStore) (ref : Ref) (r : Record) : Prop where
  untagged : r.tag = none → r.layout = none
  origin : ∀ l, r.layout = some l → l.origin = .migrated ref ∨ ∃ t, r.tag = some t ∧ s.LiteralLayout t l

theorem Contents.congr (contents : r.Contents Stored) (slots : r'.slots = r.slots) (store : r'.dyn = r.dyn) :
    r'.Contents Stored where
  slots i w here := contents.slots i w (slots ▸ here)
  store d here := contents.store d (store ▸ here)
  entries name w here := contents.entries name w (by rwa [dynGet?, store] at here)

theorem Contents.setSlot (contents : r.Contents Stored) (i : Nat) {slot : Slot}
    (stored : ∀ w, slot = .here w → Stored w) : (r.setSlot i slot).Contents Stored := by
  have dyn : (r.setSlot i slot).dyn = r.dyn := by rw [setSlot_eq]
  refine ⟨fun j w here => ?_, fun d here => contents.store d (dyn ▸ here), fun name w here => ?_⟩
  · rw [setSlot_slots, Array.getElem?_setIfInBounds] at here
    split_ifs at here with same inside
    · exact stored w (Option.some.inj here)
    · exact contents.slots j w here
  · rw [dynGet?, dyn] at here
    exact contents.entries name w here

theorem Write.contents (write : r.Write Stored r') (contents : r.Contents Stored) : r'.Contents Stored := by
  cases write with
  | slot i stored =>
    refine contents.setSlot i fun w here => ?_
    cases here
    exact stored
  | share i => exact contents.setSlot i fun w here => by cases here
  | openStore hash =>
    refine ⟨contents.slots, withStore_placed hash contents.store, fun name w here => ?_⟩
    rw [dynGet?_withStore] at here
    exact contents.entries name w here
  | put name stored =>
    refine ⟨contents.slots, r.dynPut_placed contents.store name _, fun x v here => ?_⟩
    rw [r.dynGet?_dynPut contents.store] at here
    split_ifs at here
    · cases here
      exact stored
    · exact contents.entries x v here
  | erase name =>
    have slots : (r.dynErase name).1.slots = r.slots := by
      rw [dynErase_eq]
      rfl
    refine ⟨slots ▸ contents.slots, r.dynErase_placed contents.store name, fun x v here => ?_⟩
    rw [r.dynGet?_dynErase contents.store] at here
    split_ifs at here
    exact contents.entries x v here
  | elems d => exact contents.congr (setElems_slots d) (by rw [setElems_eq])
  | cell | link => exact contents.congr rfl rfl

theorem Edit.contents (edit : r.Edit Stored ref r') (contents : r.Contents Stored) : r'.Contents Stored := by
  cases edit with
  | write write => exact write.contents contents
  | tag | start | install | publish | finish => exact contents.congr rfl rfl

/-- What stays as it is belongs to the same record. -/
theorem Edit.laid (edit : r.Edit Stored ref r') (laid : r.Laid s ref) : r'.Laid s ref := by
  cases edit with
  | write write =>
    obtain ⟨_, tag, layout⟩ := write.frame
    exact ⟨tag ▸ layout ▸ laid.untagged, tag ▸ layout ▸ laid.origin⟩
  | tag none t =>
    refine ⟨fun absent => (Option.some_ne_none t absent).elim, fun l here => ?_⟩
    rw [laid.untagged none] at here
    cases here
  | start none t =>
    refine ⟨fun absent => (Option.some_ne_none t absent).elim, fun l here => ?_⟩
    cases here
    exact .inl rfl
  | @install l table id slot here installed =>
    refine ⟨fun none => ?_, fun l' here' => ?_⟩
    · rw [laid.untagged none] at here
      cases here
    · cases here'
      obtain own | ⟨t, _, literal⟩ := laid.origin l here
      · exact .inl own
      · have closed := literal.published
        rw [(Layout.install_eq_ok installed).1] at closed
        cases closed
  | publish =>
    refine ⟨fun none => by simp only [laid.untagged none, Option.map_none], fun l' here' => ?_⟩
    obtain ⟨l, here, rfl⟩ := Option.map_eq_some_iff.1 here'
    obtain own | ⟨t, tag, literal⟩ := laid.origin l here
    · exact .inl own
    · have same : l.table.publish = l.table := by rw [Layout.publish, ← literal.published]
      exact .inr ⟨t, tag, literal.1, by rw [same]; exact literal.2⟩
  | finish => exact ⟨laid.untagged, laid.origin⟩

theorem Made.contents (made : r.Made s Stored) : r.Contents Stored where
  slots := made.slots
  store d here := by
    rw [made.store] at here
    cases here
  entries name w here := by
    rw [dynGet?, made.store] at here
    cases here

theorem Made.laid (made : r.Made s Stored) : r.Laid s ref := by
  refine ⟨fun none => ?_, fun l here => .inr (made.layout l here)⟩
  cases here : r.layout with
  | none => rfl
  | some l =>
    obtain ⟨t, tag, _⟩ := made.layout l here
    rw [none] at tag
    cases tag

end Record

structure Heap.Holds (s : TypeStore) (Stored : Word → Prop) (h : Heap) : Prop where
  contents : ∀ {ref : Ref} {r : Record}, h.get? ref = some r → r.Contents Stored
  laid : ∀ {ref : Ref} {r : Record}, h.get? ref = some r → r.Laid s ref

namespace Heap

variable {h h' : Heap}

theorem holds_empty : Heap.empty.Holds s Stored :=
  ⟨fun found => by simp at found, fun found => by simp at found⟩

theorem Edit.holds (edit : h.Edit s Stored h') (holds : h.Holds s Stored) : h'.Holds s Stored := by
  cases edit with
  | @update ref r f found edit =>
    have at_ref := get?_update_same found f
    constructor <;> intro x rx present <;> by_cases same : x = ref
    · subst same
      cases at_ref.symm.trans present
      exact edit.contents (holds.contents found)
    · rw [get?_update_ne same] at present
      exact holds.contents present
    · subst same
      cases at_ref.symm.trans present
      exact edit.laid (holds.laid found)
    · rw [get?_update_ne same] at present
      exact holds.laid present
  | @add r made =>
    constructor <;> intro x rx present <;> rw [get?_add] at present <;> split_ifs at present
    · cases present
      exact made.contents
    · exact holds.contents present
    · cases present
      exact made.laid
    · exact holds.laid present

theorem Edit.stays (edit : h.Edit s Stored h') (holds : h.Holds s Stored) (found : h.get? ref = some r) :
    ∃ r', h'.get? ref = some r' ∧ r.Stays r' := by
  cases edit with
  | @update x rx f present edit =>
    by_cases same : ref = x
    · subst same
      cases present.symm.trans found
      exact ⟨f r, get?_update_same found f, edit.stays (holds.laid found).untagged⟩
    · exact ⟨r, by rw [get?_update_ne same, found], .refl r⟩
  | @add new made => exact ⟨r, get?_add_old found new, .refl r⟩

theorem Edits.holds (edits : h.Edits s Stored h') (holds : h.Holds s Stored) : h'.Holds s Stored := by
  induction edits with
  | refl => exact holds
  | tail _ edit ih => exact edit.holds ih

theorem Edits.stays (edits : h.Edits s Stored h') (holds : h.Holds s Stored) (found : h.get? ref = some r) :
    ∃ r', h'.get? ref = some r' ∧ r.Stays r' := by
  induction edits with
  | refl => exact ⟨r, found, .refl r⟩
  | tail edits edit ih =>
    obtain ⟨r', found', stays⟩ := ih
    obtain ⟨r'', found'', stays'⟩ := edit.stays (Edits.holds edits holds) found'
    exact ⟨r'', found'', stays.trans stays'⟩

end Heap

end Gradual
