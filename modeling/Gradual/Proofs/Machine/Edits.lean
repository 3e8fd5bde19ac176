import Gradual.Proofs.Heap.Edit
import Gradual.Proofs.Machine.Reachable

/-!
Operations change the heap by single changes only, however they end. `Run.Edits` says so of an action, and what of
its result: a coercion passes on what it is given, or makes a closure. No condition on the operands is needed, so
a step of a host is always a number of changes (`Machine.Offers.edits`).
-/
namespace Gradual

/-- Properties may hold all values but boxes, and maybe more. -/
def Storable (Stored : Word → Prop) : Prop := ∀ w v, w.decode? = some v → v.kind ≠ .box → Stored w

/-- The machine has been changed by changes to its heap, apart from stack, flag and trace. -/
structure Machine.Edits (Stored : Word → Prop) (m m' : Machine) : Prop where
  types : m'.types = m.types
  heap : m.heap.Edits m.types Stored m'.heap

abbrev Machine.Holds (Stored : Word → Prop) (m : Machine) : Prop := m.heap.Holds m.types Stored

namespace Machine.Edits

variable {Stored : Word → Prop} {m m' m'' : Machine}

theorem of_eq (heap : m'.heap = m.heap) (types : m'.types = m.types) : m.Edits Stored m' :=
  ⟨types, heap ▸ .refl⟩

theorem trans (first : m.Edits Stored m') (second : m'.Edits Stored m'') : m.Edits Stored m'' :=
  ⟨second.types.trans first.types, first.heap.trans (first.types ▸ second.heap)⟩

theorem holds (edits : m.Edits Stored m') (holds : m.Holds Stored) : m'.Holds Stored := by
  rw [Machine.Holds, edits.types]
  exact edits.heap.holds holds

end Machine.Edits

namespace Run

variable {α β ι : Type} {Stored : Word → Prop} {m : Machine} {ref : Ref} {r : Record} {w : Word} {recur : Recur}

/-- Started in `m`, the action changes nothing; only if it fails it may set the flag. -/
def Looks (act : Run α) (m : Machine) (ok : α → Prop) : Prop :=
  Ends act m (fun a m' => m' = m ∧ ok a) fun _ m' => m'.heap = m.heap ∧ m'.types = m.types

namespace Looks

variable {ok : α → Prop} {mid : β → Prop}

theorem pure {a : α} (here : ok a) : Looks (pure a) m ok := ⟨rfl, here⟩

theorem violate (v : Violation) : Looks (violate v) m ok := ⟨rfl, rfl⟩

theorem misuse (e : Misuse) : Looks (misuse e) m ok := ⟨rfl, rfl⟩

theorem broken : Looks broken m ok := ⟨rfl, rfl⟩

theorem bind {act : Run β} {next : β → Run α} (first : Looks act m mid) (rest : ∀ b, mid b → Looks (next b) m ok) :
    Looks (act >>= next) m ok := by
  refine (ends_bind ..).2 (first.mono ?_ fun _ _ fault => fault)
  rintro b _ ⟨rfl, here⟩
  exact rest b here

theorem get {next : Machine → Run α} (rest : Looks (next m) m ok) : Looks (get >>= next) m ok := rest

theorem discard {act : Run β} (looks : Looks act m mid) : Looks (discard act) m fun _ => True :=
  (ends_discard act).2 (looks.mono (fun _ _ done => ⟨done.1, trivial⟩) fun _ _ fault => fault)

end Looks

theorem looks_decode (w : Word) : Looks (decode w) m (w.decode? = some ·) := by
  unfold decode
  split
  next known => exact .pure known
  next => exact .misuse _

theorem looks_node (t : TypeId) : Looks (node t) m (· = m.types.graph.node t) := ⟨rfl, rfl⟩

theorem looks_format (t : Child) : Looks (format t) m fun _ => True := ⟨rfl, trivial⟩

theorem looks_recordAt (ref : Ref) : Looks (recordAt ref) m (m.heap.get? ref = some ·) := by
  refine .get ?_
  split
  next found => exact .pure found
  next => exact .misuse _

theorem looks_record (w : Word) : Looks (record w) m fun x => m.heap.get? x.1 = some x.2 := by
  refine (looks_decode w).bind fun v _ => ?_
  split
  · exact (looks_recordAt _).bind fun r found => .pure found
  · exact .misuse _

theorem looks_record? (w : Word) :
    Looks (record? w) m fun x => ∀ ref r, x = some (ref, r) → m.heap.get? ref = some r := by
  refine (looks_decode w).bind fun v _ => ?_
  split
  · refine (looks_recordAt _).bind fun r found => .pure fun _ _ same => ?_
    cases same
    exact found
  · exact .pure fun _ _ same => by cases same

theorem looks_propName (id : PropId) :
    Looks (propName id) m fun name => name = m.types.names.name id ∧ name ≠ "" := by
  refine .get ?_
  dsimp only
  split
  next => exact .misuse _
  next named => exact .pure ⟨rfl, named⟩

theorem looks_describe (w : Word) : Looks (describe w) m fun _ => True := by
  refine (looks_record? w).bind fun found _ => ?_
  split
  · exact (looks_decode w).bind fun _ _ => .pure trivial
  · refine (looks_decode w).bind fun v _ => ?_
    split
    · exact .pure trivial
    · exact (looks_format _).bind fun _ _ => .pure trivial

/-- A mismatch returns nothing, so anything can be said about what it returns. -/
theorem looks_mismatch {ok : α → Prop} (w : Word) (t : Child) : Looks (mismatch w t) m ok :=
  (looks_describe w).bind fun _ _ => (looks_format t).bind fun _ _ => .violate _

theorem looks_propRecord (operation : String) (obj : Word) :
    Looks (propRecord operation obj) m fun x => m.heap.get? x.1 = some x.2 := by
  refine (looks_decode obj).bind fun v _ => ?_
  split
  · exact (looks_recordAt _).bind fun _ found => .pure found
  · exact (looks_recordAt _).bind fun _ found => .pure found
  · exact .violate _

theorem looks_arrayOf (obj : Word) : Looks (arrayOf obj) m fun _ => True := by
  have other : Looks (do violate (.notArray (← describe obj)) : Run (Ref × Deque)) m fun _ => True :=
    (looks_describe obj).bind fun _ _ => .violate _
  refine (looks_decode obj).bind fun v _ => ?_
  split
  · refine (looks_recordAt _).bind fun r _ => ?_
    split
    · exact .pure trivial
    · exact other
  · exact other

theorem looks_callable (fn : Word) : Looks (callable fn) m fun _ => True := by
  have other : Looks (do violate (.notCallable (← describe fn)) : Run (Ref × Record × Code)) m fun _ => True :=
    (looks_describe fn).bind fun _ _ => .violate _
  refine (looks_decode fn).bind fun v _ => ?_
  split
  · refine (looks_recordAt _).bind fun r _ => ?_
    split
    · exact .pure trivial
    · exact other
  · exact other

theorem looks_checkTypedCode (t : TypeId) (code : GivenCode) : Looks (checkTypedCode t code) m fun _ => True := by
  cases code with
  | absent | untyped => exact .misuse _
  | typed arity =>
    refine .get ?_
    dsimp only
    split
    · exact .misuse _
    · split
      · exact .misuse _
      · exact .pure trivial

theorem looks_prototypeLink (proto : Word) : Looks (prototypeLink proto) m fun _ => True := by
  refine (looks_decode proto).bind fun v _ => ?_
  split
  · exact .pure trivial
  · exact (looks_propRecord _ proto).bind fun _ _ => .pure trivial

theorem looks_verdict (rel : Relation) (a b : Child) : Looks (verdict rel a b) m fun _ => True := by
  refine .get ?_
  split
  · exact .pure trivial
  · exact .violate _
  · exact .misuse _

theorem looks_promises (owner : Record) (p : Property) : Looks (promises owner p) m fun _ => True := by
  unfold promises
  split
  · exact .pure trivial
  · split
    · exact .pure trivial
    · refine (looks_node _).bind fun n _ => ?_
      split
      · exact .pure trivial
      · exact looks_verdict ..

theorem looks_nextSlot (ref : Ref) (name : String) : Looks (nextSlot ref name) m fun _ => True := by
  refine (looks_recordAt ref).bind fun r _ => ?_
  dsimp only
  split
  · exact .violate _
  · exact .pure trivial

/-- What a slot forwards to is in a slot of the heap. -/
theorem stored_of_resolves {slot : Slot} (holds : m.Holds Stored) (found : m.heap.get? ref = some r) {i : Nat}
    (here : r.slots[i]? = some slot) (resolves : m.heap.Resolves slot w) : Stored w := by
  induction resolves generalizing ref r i with
  | here => exact (holds.contents found).slots i _ here
  | forward found' inner _ ih => exact ih found' inner

theorem looks_readSlot (holds : m.Holds Stored) (found : m.heap.get? ref = some r) (i : Nat) :
    Looks (readSlot r i) m Stored := by
  refine .get ?_
  split
  next w resolved =>
    obtain ⟨slot, here, resolves⟩ := Option.bind_eq_some_iff.1 resolved
    exact .pure (stored_of_resolves holds found here (Heap.resolves_of_resolveWithin resolves))
  next => exact .broken

def Edits (Stored : Word → Prop) (act : Run α) (m : Machine) (ok : α → Prop) : Prop :=
  Ends act m (fun a m' => m.Edits Stored m' ∧ ok a) fun _ m' => m.Edits Stored m'

theorem Looks.edits {act : Run α} {ok : α → Prop} (looks : Looks act m ok) : Edits Stored act m ok := by
  refine Ends.mono looks ?_ fun _ _ fault => .of_eq fault.1 fault.2
  rintro a _ ⟨rfl, here⟩
  exact ⟨.of_eq rfl rfl, here⟩

namespace Edits

variable {ok : α → Prop} {mid : β → Prop} {act : Run β} {next : β → Run α}

theorem pure {a : α} (here : ok a) : Edits Stored (pure a) m ok := (Looks.pure here).edits

theorem mono {ok' : α → Prop} {act : Run α} (edits : Edits Stored act m ok) (weaker : ∀ a, ok a → ok' a) :
    Edits Stored act m ok' :=
  Ends.mono edits (fun a _ done => ⟨done.1, weaker a done.2⟩) fun _ _ fault => fault

/-- After an action that only reads nothing has changed. -/
theorem look (first : Looks act m mid) (rest : ∀ b, mid b → Edits Stored (next b) m ok) :
    Edits Stored (act >>= next) m ok := by
  refine (ends_bind ..).2 (Ends.mono first ?_ fun _ _ fault => .of_eq fault.1 fault.2)
  rintro b _ ⟨rfl, here⟩
  exact rest b here

/-- Nothing comes after a fault. -/
theorem stop (fault : Looks act m fun _ => False) : Edits Stored (act >>= next) m ok :=
  look fault fun _ none => none.elim

/-- A check before the rest. -/
theorem guard {c : Prop} [Decidable c] {act : Run PUnit} {next : PUnit → Run α} (fault : Looks act m fun _ => False)
    (rest : ¬c → Edits Stored (next ⟨⟩) m ok) : Edits Stored (if c then act >>= next else next ⟨⟩) m ok := by
  split
  · exact stop fault
  next passed => exact rest passed

theorem bind (holds : m.Holds Stored) (first : Edits Stored act m mid)
    (rest : ∀ b m', m'.Holds Stored → mid b → Edits Stored (next b) m' ok) : Edits Stored (act >>= next) m ok := by
  refine (ends_bind ..).2 (Ends.mono first ?_ fun _ _ fault => fault)
  rintro b m' ⟨edits, here⟩
  refine Ends.mono (rest b m' (edits.holds holds) here) ?_ fun _ _ fault => edits.trans fault
  rintro a m'' ⟨edits', done⟩
  exact ⟨edits.trans edits', done⟩

theorem get {next : Machine → Run α} (rest : Edits Stored (next m) m ok) : Edits Stored (get >>= next) m ok := rest

theorem forM {f : ι → Run PUnit} (holds : m.Holds Stored)
    (each : ∀ x m', m'.Holds Stored → Edits Stored (f x) m' fun _ => True) (xs : List ι) :
    Edits Stored (xs.forM f) m fun _ => True := by
  induction xs generalizing m with
  | nil => exact .pure trivial
  | cons x xs ih => exact bind holds (each x m holds) fun _ _ holds' _ => ih holds'

theorem nested {act : Run α} (inner : Edits Stored act { m with depth := m.depth + 1 } ok) :
    Edits Stored (nested act) m ok := by
  refine ends_nested.2 (Ends.mono inner ?_ fun _ _ fault => ⟨fault.types, fault.heap⟩)
  rintro a m' ⟨edits, here⟩
  exact ⟨⟨edits.types, edits.heap⟩, here⟩

end Edits

/-- A record that is not there stays away. -/
theorem edits_updateRecord {f : Record → Record}
    (edit : ∀ r, m.heap.get? ref = some r → r.Edit Stored ref (f r)) :
    Edits Stored (updateRecord ref f) m fun _ => True := by
  refine ⟨⟨rfl, ?_⟩, trivial⟩
  cases found : m.heap.get? ref with
  | some r => exact .single (.update found (edit r found))
  | none =>
    change m.heap.Edits m.types Stored (m.heap.update ref f)
    rw [Heap.update_of_none found]

theorem edits_write {f : Record → Record} (write : ∀ r, m.heap.get? ref = some r → r.Write Stored (f r)) :
    Edits Stored (updateRecord ref f) m fun _ => True :=
  edits_updateRecord fun r found => .write (write r found)

theorem edits_openStore (ref : Ref) : Edits Stored (openStore ref) m fun _ => True :=
  edits_write fun _ _ => .openStore m.hash

theorem edits_allocate (made : r.Made m.types Stored) :
    Edits Stored (allocate r) m fun w => w.decode? = some (r.value (m.heap.size + 1)) := by
  rw [Edits, ends_allocate]
  split
  next room => exact ⟨⟨rfl, .single (.add made)⟩, r.word_decode? (Nat.succ_ne_zero _) room⟩
  next => exact .of_eq rfl rfl

/-- A record without layout and slots. -/
theorem made_bare {body : RecordBody} {tag : Child} {cell : Word} (slots : (Record.plain body).slots = #[]) :
    Record.Made m.types Stored { Record.plain body with tag := tag, cell := cell } := by
  refine ⟨fun i w here => ?_, rfl, fun l here => by cases here⟩
  change (Record.plain body).slots[i]? = _ at here
  rw [slots] at here
  cases here

theorem edits_importClosure (storable : Storable Stored) (ref : Ref) (t : TypeId) (sig : Signature) :
    Edits Stored (importClosure ref t sig) m Stored := by
  unfold importClosure
  dsimp only
  split
  · exact .look (looks_format _) fun _ _ => (Looks.violate _).edits
  · split
    · exact .stop Looks.broken
    · refine (edits_allocate (made_bare rfl)).mono fun w known => storable w _ known ?_
      simp [Record.value, Record.kind, Record.plain, Value.kind]

theorem edits_coerceClosure (storable : Storable Stored) (w : Word) (t : TypeId) (sig : Signature) :
    Edits Stored (coerceClosure w t sig) m fun v => Stored w → Stored v := by
  refine .look (looks_decode w) fun v _ => ?_
  split
  · exact .pure fun stored => stored
  · refine .look (looks_recordAt _) fun r _ => ?_
    split
    · split
      · exact .pure fun stored => stored
      · refine .look (looks_verdict ..) fun answer _ => ?_
        split
        · exact .pure fun stored => stored
        · exact (looks_mismatch ..).edits
    · refine .guard (looks_mismatch ..) fun _ => ?_
      exact (edits_importClosure storable ..).mono fun _ stored _ => stored
  · exact (looks_mismatch ..).edits

theorem edits_setSlot {slot : Slot} (stored : ∀ w, slot = .here w → Stored w) (ref : Ref) (i : Nat) :
    Edits Stored (setSlot ref i slot) m fun _ => True := by
  refine .look (looks_recordAt ref) fun r _ => ?_
  split
  · refine edits_write fun r _ => ?_
    cases slot with
    | here w => exact .slot i (stored w rfl)
    | forward owner j => exact .share i owner j
  · exact Looks.broken.edits

theorem edits_install (ref : Ref) (id : PropId) (slot : Nat) :
    Edits Stored (install ref id slot) m fun _ => True := by
  refine .look (looks_recordAt ref) fun r found => ?_
  split
  · exact Looks.broken.edits
  next l here =>
    split
    · exact (Looks.misuse _).edits
    next table installed =>
      refine edits_updateRecord fun r' found' => ?_
      cases found.symm.trans found'
      exact .install here installed

theorem edits_publish (ref : Ref) : Edits Stored (publish ref) m fun _ => True :=
  edits_updateRecord fun _ _ => .publish

theorem edits_tag (found : m.heap.get? ref = some r) (untagged : r.tag = none) (t : TypeId) :
    Edits Stored (updateRecord ref fun r => { r with tag := some t }) m fun _ => True :=
  edits_updateRecord fun r' found' => by
    cases found.symm.trans found'
    exact .tag untagged t

section

variable (storable : Storable Stored)
  (parts : ∀ w t m, m.Holds Stored → Edits Stored (recur w t) m fun v => Stored w → Stored v)
include parts

theorem edits_coerceSlot (holds : m.Holds Stored) (owner : Ref) (slot : Nat) (p : Property) :
    Edits Stored (coerceSlot recur owner slot p) m fun _ => True := by
  refine .look (looks_recordAt owner) fun before found => .look (looks_promises before p) fun kept _ => ?_
  split
  · exact .pure trivial
  · refine .look (looks_readSlot holds found slot) fun w stored => ?_
    refine .bind holds (parts w p.type m holds) fun converted m' holds' passed => ?_
    split
    · exact .pure trivial
    · refine .look (looks_recordAt owner) fun after _ => ?_
      dsimp only
      split
      · exact .look (looks_propName _) fun _ _ => .look (looks_format _) fun _ _ => (Looks.violate _).edits
      · exact edits_setSlot (fun v same => by cases same; exact passed stored) owner slot

theorem edits_inherit (holds : m.Holds Stored) (ref : Ref) (p : Property) (name : String) (refs : List Ref) :
    Edits Stored (inherit recur ref p name refs) m fun _ => True := by
  induction refs with
  | nil => exact .pure trivial
  | cons q rest ih =>
    refine .look (looks_recordAt q) fun r found => ?_
    split
    next slot _ =>
      refine .bind holds (edits_coerceSlot parts holds q slot p) fun _ m' holds' _ => ?_
      refine .look (looks_recordAt ref) fun own _ => .look (looks_recordAt q) fun rq _ => ?_
      split
      · refine .look (looks_nextSlot ref name) fun place _ => ?_
        refine .bind holds' (edits_publish q) fun _ _ holds'' _ => ?_
        refine .bind holds'' (edits_setSlot (fun v same => by cases same) ref place) fun _ _ holds₃ _ => ?_
        exact .bind holds₃ (edits_install ..) fun _ _ _ _ => .pure trivial
      · exact .pure trivial
    next =>
      split
      next w here =>
        refine .bind holds (parts w p.type m holds) fun converted m' holds' passed => ?_
        have stored := passed ((holds.contents found).entries name w here)
        exact .bind holds' (edits_write fun _ _ => .put name stored) fun _ _ _ _ => .pure trivial
      next => exact ih

theorem edits_migrateProp (holds : m.Holds Stored) (ref : Ref) (p : Property) :
    Edits Stored (migrateProp recur ref p) m fun _ => True := by
  refine .look (looks_propName p.id) fun name _ => .look (looks_recordAt ref) fun r found => ?_
  have missing (m : Machine) : Edits Stored (do
      violate (.missingProperty (r.value ref).text name (← format p.type)) : Run Unit) m fun _ => True :=
    .look (looks_format _) fun _ _ => (Looks.violate _).edits
  split
  next w here =>
    refine .look (looks_nextSlot ref name) fun slot _ => ?_
    refine .bind holds (parts w p.type m holds) fun converted m' holds' passed => ?_
    have stored := passed ((holds.contents found).entries name w here)
    refine .bind holds' (edits_setSlot (fun v same => by cases same; exact stored) ref slot) fun _ _ holds'' _ => ?_
    exact .bind holds'' (edits_install ..) fun _ _ _ _ => edits_write fun _ _ => .erase name
  next =>
    split
    · refine .get (.bind holds (edits_inherit parts holds ref p name _) fun found _ _ _ => ?_)
      split
      · exact .pure trivial
      · exact missing _
    · exact missing m

theorem edits_migrate (holds : m.Holds Stored) (found : m.heap.get? ref = some r) (untagged : r.tag = none)
    (t : TypeId) : Edits Stored (migrate recur ref t) m fun _ => True := by
  have start : Edits Stored (updateRecord ref fun r =>
      { r with tag := some t, layout := some ⟨.migrated ref, Layout.empty⟩, migrating := true }) m fun _ => True :=
    edits_updateRecord fun r' found' => by
      cases found.symm.trans found'
      exact .start untagged t
  refine .bind holds start fun _ _ holds₁ _ => .look (looks_node t) fun n _ => ?_
  refine .bind holds₁ (.forM holds₁ (fun p _ holds => edits_migrateProp parts holds ref p) _) fun _ _ holds₂ _ => ?_
  refine .bind holds₂ (.forM holds₂ (fun p _ holds => edits_migrateProp parts holds ref p) _) fun _ _ holds₃ _ => ?_
  exact .bind holds₃ (edits_updateRecord fun _ _ => .finish) fun _ _ _ _ => edits_publish ref

theorem edits_coerceObject (holds : m.Holds Stored) (w : Word) (t : TypeId) :
    Edits Stored (coerceObject recur w t) m fun v => Stored w → Stored v := by
  refine .look (looks_decode w) fun v _ => ?_
  split
  case h_2 ref _ | h_3 ref _ =>
    refine .look (looks_recordAt ref) fun r found => ?_
    split
    · split
      · exact .pure fun stored => stored
      · refine .look (looks_verdict ..) fun answer _ => ?_
        split
        · exact .pure fun stored => stored
        · exact (looks_mismatch ..).edits
    next untagged =>
      refine .guard (looks_mismatch ..) fun _ => ?_
      exact .bind holds (edits_migrate parts holds found untagged t) fun _ _ _ _ => .pure fun stored => stored
  · exact .pure fun stored => stored
  · exact (looks_mismatch ..).edits

omit parts in
theorem edits_sameContainer (w : Word) (tag t : TypeId) :
    Edits Stored (sameContainer w tag t) m fun v => Stored w → Stored v := by
  unfold sameContainer
  split
  · exact .pure fun stored => stored
  · refine .look (looks_verdict ..) fun answer _ => ?_
    split
    · exact .pure fun stored => stored
    · exact (looks_mismatch ..).edits

theorem edits_coerceElem (holds : m.Holds Stored) (ref : Ref) (elem : Child) (i : Nat) :
    Edits Stored (coerceElem recur ref elem i) m fun _ => True := by
  refine .look (looks_recordAt ref) fun r _ => ?_
  split
  · exact Looks.broken.edits
  · refine .bind holds (parts _ _ m holds) fun _ _ _ _ => edits_write fun r _ => ?_
    split
    next => exact .elems _
    next => exact .cell r.cell

theorem edits_coerceArray (holds : m.Holds Stored) (w : Word) (t : TypeId) (elem : Child) :
    Edits Stored (coerceArray recur w t elem) m fun v => Stored w → Stored v := by
  refine .look (looks_decode w) fun v _ => ?_
  split
  · exact .pure fun stored => stored
  · refine .look (looks_record? w) fun x leads => ?_
    split
    · exact (looks_mismatch ..).edits
    next ref r =>
      split
      · exact (looks_mismatch ..).edits
      · split
        · exact edits_sameContainer ..
        next untagged =>
          refine .bind holds (edits_tag (leads ref r rfl) untagged t) fun _ _ holds₁ _ => ?_
          refine .bind holds₁ (.forM holds₁ (fun i _ holds => edits_coerceElem parts holds ref elem i) _)
            fun _ _ _ _ => .pure fun stored => stored

theorem edits_coerceEntry (holds : m.Holds Stored) (ref : Ref) (elem : Child) (key : String) :
    Edits Stored (coerceEntry recur ref elem key) m fun _ => True := by
  refine .look (looks_recordAt ref) fun r found => ?_
  split
  · exact .pure trivial
  next w here =>
    refine .bind holds (parts w elem m holds) fun _ _ _ passed => edits_write fun _ _ => .put key ?_
    exact passed ((holds.contents found).entries key w here)

theorem edits_coerceMap (holds : m.Holds Stored) (w : Word) (t : TypeId) (elem : Child) :
    Edits Stored (coerceMap recur w t elem) m fun v => Stored w → Stored v := by
  refine .look (looks_decode w) fun v _ => ?_
  split
  · exact .pure fun stored => stored
  next ref _ =>
    refine .look (looks_recordAt ref) fun r found => ?_
    dsimp only
    split
    · exact edits_sameContainer ..
    next untagged =>
      refine .guard (looks_mismatch ..) fun _ => .bind holds (edits_tag found untagged t) fun _ _ holds₁ _ => ?_
      exact .bind holds₁ (.forM holds₁ (fun key _ holds => edits_coerceEntry parts holds ref elem key) _)
        fun _ _ _ _ => .pure fun stored => stored
  · exact (looks_mismatch ..).edits

include storable in
theorem edits_coerceStep (holds : m.Holds Stored) (w : Word) (t : TypeId) :
    Edits Stored (coerceStep recur w t) m fun v => Stored w → Stored v := by
  unfold coerceStep
  split
  · exact .pure fun stored => stored
  · refine .look (looks_node t) fun n _ => ?_
    split
    · exact .pure fun stored => stored
    · refine .look (looks_decode w) fun v _ => ?_
      split
      · exact .pure fun stored => stored
      · exact (looks_mismatch ..).edits
    · exact edits_coerceClosure storable w t _
    · exact edits_coerceObject parts holds w t
    · exact edits_coerceArray parts holds w t _
    · exact edits_coerceMap parts holds w t _
    · exact (looks_mismatch ..).edits

end

theorem edits_coerceWithin (storable : Storable Stored) (budget : Nat) (w : Word) (t : Child) (m : Machine)
    (holds : m.Holds Stored) : Edits Stored (coerceWithin budget w t) m fun v => Stored w → Stored v := by
  induction budget generalizing w t m with
  | zero =>
    cases t with
    | none => exact (Looks.misuse _).edits
    | some t => exact .nested (.get (Looks.violate _).edits)
  | succ budget ih =>
    cases t with
    | none => exact (Looks.misuse _).edits
    | some t => exact .nested (edits_coerceStep storable ih (m := { m with depth := m.depth + 1 }) holds w t)

theorem edits_setProp (storable : Storable Stored) (holds : m.Holds Stored) (obj : Word) (id : PropId) (w : Word) :
    Edits Stored (setProp obj id w) m fun _ => True := by
  refine .look (looks_decode w) fun v known => ?_
  refine .guard (.misuse _) fun plain => ?_
  have stored := storable w v known plain
  refine .look (looks_propRecord _ obj) fun (ref, r) _ => ?_
  dsimp only
  split
  · split
    · exact edits_write fun _ _ => .slot _ stored
    · exact Looks.broken.edits
  · refine .bind holds (edits_openStore ref) fun _ _ _ _ => ?_
    exact .look (looks_propName id) fun name _ => edits_write fun _ _ => .put name stored

theorem edits_deleteProp (holds : m.Holds Stored) (obj : Word) (id : PropId) :
    Edits Stored (deleteProp obj id) m fun _ => True := by
  refine .look (looks_propRecord _ obj) fun (ref, r) found => ?_
  dsimp only at found ⊢
  split
  · exact .pure trivial
  · refine .look (looks_propName id) fun name _ => ?_
    refine .bind holds (edits_write fun r' found' => ?_) fun _ _ _ _ => .pure trivial
    cases found.symm.trans found'
    exact .erase name

theorem edits_setPrototype (obj proto : Word) : Edits Stored (setPrototype obj proto) m fun _ => True := by
  refine .look (looks_propRecord _ obj) fun (ref, _) _ => .look (looks_decode proto) fun v _ => ?_
  dsimp only
  split
  · exact edits_write fun _ _ => .link none
  · refine .look (looks_propRecord _ proto) fun (target, _) _ => .get ?_
    dsimp only
    split
    · exact .look (looks_decode obj) fun _ _ => .stop (Looks.violate _)
    · exact edits_write fun _ _ => .link (some target)

theorem edits_boxSet (box w : Word) : Edits Stored (boxSet box w) m fun _ => True := by
  refine .look (looks_decode box) fun v _ => ?_
  split
  · refine .look (looks_decode w) fun x _ => .guard (.misuse _) fun _ => ?_
    exact .look (looks_recordAt _).discard fun _ _ => edits_write fun _ _ => .cell w
  · exact (Looks.misuse _).edits

theorem edits_setElems (ref : Ref) (d : Deque) : Edits Stored (setElems ref d) m fun _ => True :=
  edits_write fun _ _ => .elems d

theorem looks_refusal (refusal : Option Deque.Refusal) : Looks (refusal.forM refuse) m fun _ => True := by
  cases refusal with
  | none => exact .pure trivial
  | some why => cases why <;> exact .misuse _

theorem edits_settle (holds : m.Holds Stored) (ref : Ref) (result : Option Deque.Refusal × Deque) :
    Edits Stored (settle ref result) m fun _ => True :=
  .bind holds (edits_setElems ..) fun _ _ _ _ => (looks_refusal _).edits

theorem edits_newBox (w : Word) : Edits Stored (newBox w) m fun _ => True :=
  .look (looks_decode w) fun _ _ => .guard (.misuse _) fun _ =>
    (edits_allocate (made_bare rfl)).mono fun _ _ => trivial

theorem edits_emptyObject (storable : Storable Stored) (count : Nat) :
    Edits Stored (emptyObject count) m fun _ => True := by
  unfold emptyObject
  refine .guard (.misuse _) fun _ => ?_
  refine (edits_allocate ⟨fun i w here => ?_, rfl, fun l here => by cases here⟩).mono fun _ _ => trivial
  change (Array.replicate _ (Slot.here Word.undefined))[i]? = some (.here w) at here
  obtain ⟨_, same⟩ := Array.getElem?_eq_some_iff.1 here
  rw [Array.getElem_replicate] at same
  cases same
  exact storable Word.undefined .undefined Word.decode?_undefined (by decide)

theorem edits_newObject (storable : Storable Stored) (n : Int) : Edits Stored (newObject n) m fun _ => True :=
  .get (edits_emptyObject storable _)

theorem edits_newLiteral {t : TypeId} {values : List Word} (stored : ∀ w ∈ values, Stored w) :
    Edits Stored (newLiteral t values) m fun _ => True := by
  refine .look (looks_node t) fun n shape => ?_
  split
  next props =>
    refine .guard (.misuse _) fun _ => ?_
    split
    · exact (Looks.misuse _).edits
    next table laid =>
      refine (edits_allocate ⟨fun i w here => ?_, rfl, fun l here => ?_⟩).mono fun _ _ => trivial
      · change (values.map Slot.here).toArray[i]? = some (.here w) at here
        rw [List.getElem?_toArray, List.getElem?_map] at here
        obtain ⟨v, member, same⟩ := Option.map_eq_some_iff.1 here
        cases same
        exact stored w (List.mem_of_getElem? member)
      · cases here
        refine ⟨t, rfl, rfl, ?_⟩
        rw [← shape]
        exact laid
  · exact (Looks.misuse _).edits

theorem edits_newClosure (t : Child) (code : GivenCode) (body : Body) (env : Option (List Word)) :
    Edits Stored (newClosure t code body env) m fun _ => True := by
  cases t with
  | none => exact (Looks.misuse _).edits
  | some t =>
    refine .look (looks_node t) fun n _ => ?_
    split
    · exact (Looks.misuse _).edits
    · refine .guard (.misuse _) fun _ => .look (looks_checkTypedCode t code) fun _ _ => ?_
      exact (edits_allocate (made_bare rfl)).mono fun _ _ => trivial

theorem edits_newConstructor (t : Child) (proto : Word) (code : GivenCode) (body : Body) (env : Option (List Word)) :
    Edits Stored (newConstructor t proto code body env) m fun _ => True := by
  cases t with
  | none =>
    unfold newConstructor
    refine .guard (.misuse _) fun _ => .look (looks_prototypeLink proto) fun _ _ => ?_
    exact (edits_allocate (made_bare rfl)).mono fun _ _ => trivial
  | some t =>
    refine .look (looks_node t) fun n _ => ?_
    split
    · exact (Looks.misuse _).edits
    · refine .guard (.misuse _) fun _ => .look (looks_checkTypedCode t code) fun _ _ => ?_
      exact .look (looks_prototypeLink proto) fun _ _ => (edits_allocate (made_bare rfl)).mono fun _ _ => trivial

theorem edits_exportClosure (fn : Word) : Edits Stored (exportClosure fn) m fun _ => True := by
  refine .look (looks_callable fn) fun (ref, r, _) _ => ?_
  dsimp only
  split
  · exact .pure trivial
  · exact (edits_allocate (made_bare rfl)).mono fun _ _ => trivial

theorem edits_instantiate (storable : Storable Stored) (holds : m.Holds Stored) (ctor : Record) :
    Edits Stored (instantiate ctor) m fun _ => True := by
  refine .bind holds (edits_newObject storable 0) fun obj _ holds' _ => ?_
  refine .look (looks_record obj) fun (ref, _) _ => ?_
  exact .bind holds' (edits_write fun _ _ => .link ctor.prototype?) fun _ _ _ _ => .pure trivial

theorem edits_pushArg (w : Word) : Edits Stored (pushArg w) m fun _ => True :=
  .get (.guard (.violate _) fun _ => ⟨.of_eq rfl rfl, trivial⟩)

theorem edits_popArg : Edits Stored popArg m fun _ => True := by
  refine .get ?_
  split
  · exact (Looks.violate _).edits
  · exact ⟨.of_eq rfl rfl, trivial⟩

/-- The words that an operation puts into properties without a look at them. -/
inductive Puts : {α : Type} → Run α → Word → Prop where
  | literal {t : TypeId} {values : List Word} {w : Word} (member : w ∈ values) : Puts (newLiteral t values) w

end Run

namespace Machine

variable {Stored : Word → Prop} {m m' : Machine}

/-- However an operation ends, it has made a number of single changes to the heap, or it has declared types. -/
theorem Offers.edits {α : Type} {act : Run α} (offer : m.Offers act) (storable : Storable Stored)
    (holds : m.Holds Stored) (puts : ∀ w, act.Puts w → Stored w) :
    m.Edits Stored (act.after m) ∨ (act.after m).heap = m.heap ∧ m.types.Extends (act.after m).types := by
  have done (edits : Run.Edits Stored act m fun _ => True) :
      m.Edits Stored (act.after m) ∨ (act.after m).heap = m.heap ∧ m.types.Extends (act.after m).types := by
    have here := Run.ends_after edits
    unfold Run.Ends at here
    left
    split at here
    · exact here.1 ▸ here.2.1
    · exact here.1 ▸ here.2
  cases offer with
  | newObject slots => exact done (Run.edits_newObject storable slots)
  | newLiteral proper genuine => exact done (Run.edits_newLiteral fun w member => puts w (.literal member))
  | newArray | newString | newUntyped => exact done ((Run.edits_allocate (Run.made_bare rfl)).mono fun _ _ => trivial)
  | newBox => exact done (Run.edits_newBox _)
  | newClosure => exact done (Run.edits_newClosure ..)
  | newConstructor => exact done (Run.edits_newConstructor ..)
  | exportClosure => exact done (Run.edits_exportClosure _)
  | instantiate => exact done (Run.edits_instantiate storable holds _)
  | setProp => exact done (Run.edits_setProp storable holds ..)
  | deleteProp => exact done (Run.edits_deleteProp holds ..)
  | setPrototype => exact done (Run.edits_setPrototype ..)
  | @arrayPut arr => exact done (.look (Run.looks_arrayOf arr) fun _ _ => Run.edits_settle holds ..)
  | @arrayPush arr | @arrayUnshift arr =>
    refine done (.look (Run.looks_arrayOf arr) fun _ _ => ?_)
    exact .bind holds (Run.edits_settle holds ..) fun _ _ _ _ => .pure trivial
  | @arrayPop arr | @arrayShift arr =>
    refine done (.look (Run.looks_arrayOf arr) fun _ _ => ?_)
    exact .bind holds (Run.edits_setElems ..) fun _ _ _ _ => .pure trivial
  | boxSet => exact done (Run.edits_boxSet ..)
  | coerce => exact done (.get ((Run.edits_coerceWithin storable _ _ _ m holds).mono fun _ _ => trivial))
  | pushArg => exact done (Run.edits_pushArg _)
  | popArg => exact done Run.edits_popArg
  | declare grown => exact .inr ⟨rfl, grown⟩
  | clearArgs | setReturn | recover | trace | violate => exact .inl (.of_eq rfl rfl)

/-- Types that records have stay what they are, so literals of one type go on to share a layout. -/
theorem Holds.extend {types : TypeStore} (holds : m.Holds Stored) (valid : m.Valid) (grown : m.types.Extends types) :
    m.heap.Holds types Stored := by
  refine ⟨holds.contents, fun found => ⟨(holds.laid found).untagged, fun l here => ?_⟩⟩
  obtain own | ⟨t, tag, origin, table⟩ := (holds.laid found).origin l here
  · exact .inl own
  · have node := grown.nodes t ((valid.records found).tagged t tag).1
    exact .inr ⟨t, tag, origin, by rw [node]; exact table⟩

theorem Offers.holds {α : Type} {act : Run α} (offer : m.Offers act) (valid : m.Valid) (storable : Storable Stored)
    (holds : m.Holds Stored) (puts : ∀ w, act.Puts w → Stored w) : (act.after m).Holds Stored := by
  obtain edits | ⟨heap, grown⟩ := offer.edits storable holds puts
  · exact edits.holds holds
  · rw [Machine.Holds, heap]
    exact holds.extend valid grown

/-- The step lemma: an operation moves no slot. -/
theorem Offers.stays {α : Type} {act : Run α} {ref : Ref} {r : Record} (offer : m.Offers act)
    (storable : Storable Stored) (holds : m.Holds Stored) (puts : ∀ w, act.Puts w → Stored w)
    (found : m.heap.get? ref = some r) : ∃ r', (act.after m).heap.get? ref = some r' ∧ r.Stays r' := by
  obtain edits | ⟨heap, _⟩ := offer.edits storable holds puts
  · exact edits.heap.stays holds found
  · exact ⟨r, heap ▸ found, .refl r⟩

end Machine

end Gradual
