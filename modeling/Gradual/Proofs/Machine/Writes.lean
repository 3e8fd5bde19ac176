import Gradual.Proofs.Coercion.Preservation
import Gradual.Proofs.Machine.Chains
import Gradual.Proofs.Machine.Forwarding

/-!
What a write to a property changes. It changes one place of one record. A read of another property does not come by that
place, and a read of the same property comes by it only if prototype links and forwarding slots lead from the record
that is read to the one that is written. What the slot forwarded to before the write does not lead back to it. Main
statement: `Machine.Reachable.setProp_frame`.
-/
namespace Gradual

/-- The second record is the first one but for the place of one property: its slot, or its entry in the store. -/
structure Record.SameBut (names : NameTable) (id : PropId) (r r' : Record) : Prop where
  frame : r' = { r with body := r'.body, dyn := r'.dyn }
  kind : r'.kind = r.kind
  body : r.kind ≠ .object → r'.body = r.body
  slots : ∀ i, r.slotOf? id ≠ some i → r'.slots[i]? = r.slots[i]?
  store : ∀ name, name ≠ names.name id → r'.dynGet? name = r.dynGet? name
  dyn : (r.slotOf? id).isSome → r'.dyn = r.dyn

theorem Record.Valid.put_sameBut {s : TypeStore} {h : Heap} {r : Record} (old : r.Valid s h) (hash : String → UInt64)
    (names : NameTable) (id : PropId) (w : Word) : r.SameBut names id (r.put hash names id w) := by
  unfold Record.put
  cases place : r.slotOf? id with
  | some i =>
    dsimp only
    constructor
    · rw [setSlot_eq]
    · unfold Record.setSlot
      cases body : r.body <;> simp [Record.kind, body]
    · intro other
      unfold Record.setSlot
      cases body : r.body with
      | object slots => exact absurd (by simp [Record.kind, body]) other
      | _ => simp [body]
    · intro k elsewhere
      have apart : i ≠ k := by
        intro same
        exact elsewhere (by rw [place, same])
      rw [setSlot_slots, Array.getElem?_setIfInBounds, if_neg apart]
    · intro name _
      rw [setSlot_eq]
      rfl
    · intro _
      rw [setSlot_eq]
  | none =>
    dsimp only
    constructor
    · rfl
    · rfl
    · intro _
      rfl
    · intro i _
      rfl
    · intro name other
      rw [r.dynGet?_dynPut_withStore old.store, if_neg other]
    · intro slot
      simp [place] at slot

def Heap.Follows (h : Heap) (a b : Ref) : Prop := h.Links a b ∨ h.Refers a b

namespace Machine

variable {m m' : Machine} {ref x q : Ref} {r rx : Record} {id y : PropId} {w obj other : Word}

structure WritesOnly (m : Machine) (ref : Ref) (id : PropId) (m' : Machine) : Prop where
  rest : m' = { m with heap := m'.heap }
  size : m'.heap.size = m.heap.size
  others : ∀ x, x ≠ ref → m'.heap.get? x = m.heap.get? x
  record : ∀ r, m.heap.get? ref = some r → ∃ r', m'.heap.get? ref = some r' ∧ r.SameBut m.types.names id r'

theorem Valid.writesOnly (valid : m.Valid) (ref : Ref) (id : PropId) (w : Word) :
    m.WritesOnly ref id (m.write ref id w) where
  rest := rfl
  size := by simp [Machine.write]
  others x different := write_get?_ne different
  record r found := ⟨_, Heap.get?_update_same found _, (valid.records found).put_sameBut _ _ id w⟩

theorem ReadsFrom.path (reads : m.ReadsFrom id ref x) : Relation.ReflTransGen m.heap.Follows x ref := by
  induction reads with
  | self => exact .refl
  | forward found _ forward _ ih => exact .head (.inr ⟨_, _, _, found, forward⟩) ih
  | inherit found _ link _ ih => exact .head (.inl ⟨_, found, link⟩) ih

/-- Forwarding leads from slot to slot of one property. -/
theorem Valid.slotOf?_of_forwards (valid : m.Valid) (found : m.heap.get? ref = some r) {i j : Nat}
    (slot : r.slotOf? id = some i) (path : Relation.ReflTransGen m.heap.Forwards (ref, i) (q, j)) :
    ∃ rq, m.heap.get? q = some rq ∧ rq.slotOf? id = some j := by
  generalize last : (q, j) = y at path
  induction path generalizing q j with
  | refl =>
    cases last
    exact ⟨r, found, slot⟩
  | @tail mid _ _ step ih =>
    cases last
    obtain ⟨rm, at_mid, entry⟩ := ih rfl
    obtain ⟨rm', at_mid', forward⟩ := step
    cases at_mid.symm.trans at_mid'
    exact valid.aligned at_mid id _ _ _ entry forward

/-- A read that starts at a slot follows slots of falling rank, so it does not come to a record of higher rank. -/
theorem Valid.not_readsFrom_of_rank_lt (valid : m.Valid) {rank : Ref → Nat} (fwd : m.heap.Forwarding rank) {j : Nat}
    (found : m.heap.get? x = some rx) (slot : rx.slotOf? id = some j) (lower : rank x < rank ref) :
    ¬m.ReadsFrom id ref x := by
  intro reads
  induction reads generalizing rx j with
  | self => exact Nat.lt_irrefl _ lower
  | forward found' slot' forward _ ih =>
    obtain ⟨rq, at_q, entry⟩ := valid.aligned found' id _ _ _ slot' forward
    exact ih at_q entry ((fwd.target found' forward).2.trans lower)
  | inherit found' missing _ _ _ =>
    cases found.symm.trans found'
    obtain ⟨_, _, _, _, own⟩ := valid.own?_of_slot found slot
    cases missing.symm.trans own

/-- A slot does not forward to one that is read through it. -/
theorem Valid.not_readsFrom_of_forwards (valid : m.Valid) (found : m.heap.get? ref = some r) {i j : Nat}
    (slot : r.slotOf? id = some i) (path : Relation.TransGen m.heap.Forwards (ref, i) (q, j)) :
    ¬m.ReadsFrom id ref q := by
  obtain ⟨rank, fwd⟩ := valid.forwarding
  obtain ⟨rq, at_q, entry⟩ := valid.slotOf?_of_forwards found slot path.to_reflTransGen
  have refers : Relation.TransGen m.heap.Refers ref q :=
    path.lift Prod.fst fun a b step => ⟨a.2, b.2, step⟩
  exact valid.not_readsFrom_of_rank_lt fwd at_q entry (fwd.transGen_lt refers)

/-- A read that does not come by the place that is written gives what it gave before. -/
theorem Valid.getProp_write (valid : m.Valid) (target : m.heap.get? ref = some r) (genuine : m.heap.Genuine w)
    (known : other.decode? = some (.object x) ∨ other.decode? = some (.closure x)) (found : m.heap.get? x = some rx)
    (named : m.types.names.name y ≠ "") (unseen : y = id → ¬m.ReadsFrom id ref x) :
    ∃ v, Run.getProp other y m = .ok v m ∧ Run.getProp other y (m.write ref id w) = .ok v (m.write ref id w) := by
  obtain ⟨rx', found', _⟩ := valid.write_record genuine ref id found
  refine ⟨_, Run.getProp_eq valid known found named, ?_⟩
  rw [Run.getProp_eq (valid.write target genuine) known found' named,
    valid.lookup?_unseen target genuine named found unseen]

/-- A write of a value that is not a box to a named property of an object or closure succeeds. The property is then the
record's own and reads as the value, and nothing else has been written. Reads give what they gave before if they are of
other properties, or of a record from which links and forwarding slots do not lead to the one that was written, or of
one that its slot forwarded to until then. -/
theorem Reachable.setProp_frame (reachable : m.Reachable)
    (known : obj.decode? = some (.object ref) ∨ obj.decode? = some (.closure ref)) (found : m.heap.get? ref = some r)
    (named : m.types.names.name id ≠ "") (genuine : m.heap.Genuine w) (bare : ∀ b, w.decode? ≠ some (.box b)) :
    ∃ m', Run.setProp obj id w m = .ok () m' ∧ Run.getProp obj id m' = .ok w m' ∧
      Run.hasOwn obj id m' = .ok true m' ∧ m.WritesOnly ref id m' ∧
      ∀ (other : Word) (x : Ref) (rx : Record) (y : PropId),
        (other.decode? = some (.object x) ∨ other.decode? = some (.closure x)) → m.heap.get? x = some rx →
        m.types.names.name y ≠ "" →
        (y ≠ id ∨ ¬Relation.ReflTransGen m.heap.Follows x ref ∨
          ∃ i j, r.slotOf? id = some i ∧ Relation.TransGen m.heap.Forwards (ref, i) (x, j)) →
        ∃ v, Run.getProp other y m = .ok v m ∧ Run.getProp other y m' = .ok v m' := by
  have valid := reachable.valid
  have valid' : (m.write ref id w).Valid := valid.write found genuine
  have found' : (m.write ref id w).heap.get? ref = _ := Heap.get?_update_same found _
  refine ⟨_, Run.setProp_eq_write valid known found genuine bare named, ?_, ?_, valid.writesOnly ref id w, ?_⟩
  · rw [Run.getProp_eq valid' known found' named, valid.lookup?_seen found genuine .self]
    rfl
  · rw [Run.hasOwn_eq valid' known found' named, valid.own?_written found genuine]
    rfl
  · intro other x rx y known_x found_x named_y apart
    apply valid.getProp_write found genuine known_x found_x named_y
    intro same reads
    rcases apart with different | unreached | ⟨i, j, slot, path⟩
    · exact different same
    · exact unreached reads.path
    · exact valid.not_readsFrom_of_forwards found slot path reads

/-- The second object gets a slot of its own, and the first one, whose slot it read until then, keeps its value. -/
theorem setProp_frame_sharing :
    ∃ m', Run.setProp (Word.objectRef 2) 0 (Word.ofInt 8) sharing = .ok () m' ∧
      Run.getProp (Word.objectRef 2) 0 sharing = .ok (Word.ofInt 5) sharing ∧
      Run.getProp (Word.objectRef 2) 0 m' = .ok (Word.ofInt 8) m' ∧
      Run.hasOwn (Word.objectRef 2) 0 m' = .ok true m' ∧ sharing.WritesOnly 2 0 m' ∧
      Run.getProp (Word.objectRef 1) 0 m' = .ok (Word.ofInt 5) m' := by
  have value : (Word.ofInt 8).decode? = some (.int 8) := rfl
  have bare : ∀ b, (Word.ofInt 8).decode? ≠ some (.box b) := by
    rw [value]
    nofun
  have named : sharing.types.names.name 0 ≠ "" := by decide
  have known : (Word.objectRef 2).decode? = some (.object 2) ∨ (Word.objectRef 2).decode? = some (.closure 2) :=
    .inl rfl
  obtain ⟨m', set, get, own, only, same⟩ := sharing_reachable.setProp_frame known rfl named ⟨_, value, nofun⟩ bare
  have forwards : sharing.heap.Forwards (2, 0) (1, 0) := ⟨_, rfl, rfl⟩
  obtain ⟨v, before, after⟩ := same (Word.objectRef 1) 1 _ 0 (.inl rfl) rfl named
    (.inr (.inr ⟨0, 0, rfl, .single forwards⟩))
  have five : Run.getProp (Word.objectRef 1) 0 sharing = .ok (Word.ofInt 5) sharing := rfl
  cases five.symm.trans before
  exact ⟨m', set, rfl, get, own, only, after⟩

end Machine

end Gradual
