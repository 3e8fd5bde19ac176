import Gradual.Proofs.Coercion.Sharing
import Mathlib.Logic.Relation

/-!
Forwarding slots can always be followed. A slot that forwards is followed to the slot of the same property
in another record, which has its layout for good, and since forwarding leads to records of lower rank it
comes to a value. Main statement: `Machine.Reachable.forwards_resolve`.
-/
namespace Gradual

namespace Heap

variable {h : Heap}

/-- The first slot, given by record and index, forwards to the second. -/
def Forwards (h : Heap) (x y : Ref × Nat) : Prop :=
  ∃ r, h.get? x.1 = some r ∧ r.slots[x.2]? = some (.forward y.1 y.2)

def Refers (h : Heap) (a b : Ref) : Prop := ∃ i j, h.Forwards (a, i) (b, j)

theorem Forwarding.transGen_lt {rank : Ref → Nat} (fwd : h.Forwarding rank) {a b : Ref}
    (path : Relation.TransGen h.Refers a b) : rank b < rank a := by
  have step {x y : Ref} (refers : h.Refers x y) : rank y < rank x := by
    obtain ⟨i, j, r, found, slot⟩ := refers
    exact (fwd.target found slot).2
  induction path with
  | single refers => exact step refers
  | tail _ refers ih => exact (step refers).trans ih

theorem Forwarding.acyclic {rank : Ref → Nat} (fwd : h.Forwarding rank) (a : Ref) :
    ¬ Relation.TransGen h.Refers a a := by
  intro cycle
  exact Nat.lt_irrefl _ (fwd.transGen_lt cycle)

end Heap

/-- A record that is not being given its layout has it published. -/
theorem Record.Valid.published {s : TypeStore} {h : Heap} {r : Record} (valid : r.Valid s h) {id : PropId} {i : Nat}
    (slot : r.slotOf? id = some i) (done : r.migrating = false) :
    ∃ l, r.layout = some l ∧ l.table.published = true ∧ l.table.slot? id = some i := by
  obtain ⟨l, layout, entry⟩ := Record.slotOf?_eq_some.1 slot
  refine ⟨l, layout, ?_, entry⟩
  rw [(valid.layout l layout).published, done]
  rfl

namespace Machine

variable {m : Machine}

/-- One step along a forwarding slot: the other record has a slot for the same property. -/
theorem Valid.forwards (valid : m.Valid) {ref q : Ref} {r : Record} {id : PropId} {i j : Nat}
    (found : m.heap.get? ref = some r) (slot : r.slotOf? id = some i) (forward : r.slots[i]? = some (.forward q j)) :
    ∃ rq l, m.heap.get? q = some rq ∧ rq.layout = some l ∧ l.table.published = true ∧
      l.table.slot? id = some j ∧ j < rq.slots.size := by
  obtain ⟨rank, fwd⟩ := valid.forwarding
  obtain ⟨⟨rq, at_q, inside, _, done⟩, _⟩ := fwd.target found forward
  obtain ⟨rq', at_q', entry⟩ := valid.aligned found id i q j slot forward
  cases at_q.symm.trans at_q'
  obtain ⟨l, layout, published, entry⟩ := (valid.records at_q).published entry done
  exact ⟨rq, l, at_q, layout, published, entry, inside⟩

/-- All steps: what a slot resolves to is the value of a slot of the same property, in the record where the walk
ends. -/
theorem Valid.home (valid : m.Valid) {s : Slot} {w : Word} (resolves : m.heap.Resolves s w) {ref : Ref} {r : Record}
    {i : Nat} (found : m.heap.get? ref = some r) (slot : r.slots[i]? = some s) :
    ∃ home rh k, Relation.ReflTransGen m.heap.Forwards (ref, i) (home, k) ∧ m.heap.get? home = some rh ∧
      rh.slots[k]? = some (.here w) ∧ ∀ id, r.slotOf? id = some i → rh.slotOf? id = some k := by
  induction resolves generalizing ref r i with
  | here => exact ⟨ref, r, i, .refl, found, slot, fun _ entry => entry⟩
  | @forward q j rq s w at_q inner _ ih =>
    obtain ⟨home, rh, k, walk, at_home, value, same⟩ := ih at_q inner
    refine ⟨home, rh, k, .head ⟨r, found, slot⟩ walk, at_home, value, fun id entry => same id ?_⟩
    obtain ⟨rq', at_q', entry'⟩ := valid.aligned found id i q j entry slot
    cases at_q.symm.trans at_q'
    exact entry'

/-- In every state that a host can reach, a property whose slot forwards has a slot in the record it forwards to,
and that record's layout is published; no forwarding leads back to where it came from; and every slot of every
record can be read, with the value that a slot of the same property has where forwarding ends. -/
theorem Reachable.forwards_resolve (reachable : m.Reachable) :
    (∀ (ref q : Ref) (r : Record) (id : PropId) (i j : Nat), m.heap.get? ref = some r → r.slotOf? id = some i →
      r.slots[i]? = some (.forward q j) →
      ∃ rq l, m.heap.get? q = some rq ∧ rq.layout = some l ∧ l.table.published = true ∧
        l.table.slot? id = some j ∧ j < rq.slots.size) ∧
    (∀ ref, ¬ Relation.TransGen m.heap.Refers ref ref) ∧
    ∀ (ref : Ref) (r : Record) (i : Nat), m.heap.get? ref = some r → i < r.slots.size →
      ∃ w, Run.readSlot r i m = .ok w m ∧
        ∃ home rh k, Relation.ReflTransGen m.heap.Forwards (ref, i) (home, k) ∧ m.heap.get? home = some rh ∧
          rh.slots[k]? = some (.here w) ∧ ∀ id, r.slotOf? id = some i → rh.slotOf? id = some k := by
  have valid := reachable.valid
  obtain ⟨rank, fwd⟩ := valid.forwarding
  refine ⟨fun ref q r id i j => valid.forwards, fwd.acyclic, fun ref r i found inside => ?_⟩
  have slot : r.slots[i]? = some r.slots[i] := Array.getElem?_eq_getElem inside
  obtain ⟨w, resolves⟩ := fwd.resolves found slot
  refine ⟨w, Run.Ends.eq_ok ?_, valid.home resolves found slot⟩
  rw [Run.ends_readSlot valid found slot resolves]
  exact ⟨rfl, rfl⟩

/-- A third object inherits from the one that shares a slot, and its coercion fails half way. Then the shared slot
loses its link and is written. -/
def unlinked : Machine :=
  (Run.setProp (Word.objectRef 1) 0 (Word.ofInt 8)).after <|
    (Run.setPrototype (Word.objectRef 2) Word.null).after <|
      (Run.coerce (Word.objectRef 3) (some 8)).after <|
        (Run.setPrototype (Word.objectRef 3) (Word.objectRef 2)).after <| (Run.newObject 1).after sharing

theorem unlinked_reachable : unlinked.Reachable := by
  have proper : sharing.types.Proper 8 := inheriting_proper 8 (by decide)
  refine .step (.step (.step (.step (.step sharing_reachable (.newObject 1)) (.setPrototype ?_ ?_))
    (.coerce ?_ proper)) (.setPrototype ?_ ⟨.null, rfl, nofun⟩)) (.setProp ?_ ⟨.int 8, rfl, nofun⟩ 0)
  all_goals exact ⟨_, rfl, fun _ same => by cases same; exact ⟨_, rfl, rfl⟩⟩

/-- The second object has no prototype and the third one is left without its layout. -/
theorem Reachable.forwards_resolve_unlinked :
    ∃ r r₃, unlinked.heap.get? 2 = some r ∧ r.slotOf? 0 = some 0 ∧ r.slots[0]? = some (.forward 1 0) ∧ r.proto = none ∧
      unlinked.heap.get? 3 = some r₃ ∧ r₃.migrating = true ∧ Run.readSlot r 0 unlinked = .ok (Word.ofInt 8) unlinked ∧
      ∃ home rh k, Relation.ReflTransGen unlinked.heap.Forwards (2, 0) (home, k) ∧
        unlinked.heap.get? home = some rh ∧ rh.slots[k]? = some (.here (Word.ofInt 8)) ∧ rh.slotOf? 0 = some k := by
  obtain ⟨r, found, entry, forward, proto, known⟩ : ∃ r, unlinked.heap.get? 2 = some r ∧ r.slotOf? 0 = some 0 ∧
      r.slots[0]? = some (.forward 1 0) ∧ r.proto = none ∧
        Run.readSlot r 0 unlinked = .ok (Word.ofInt 8) unlinked := ⟨_, rfl, rfl, rfl, rfl, rfl⟩
  have inside : 0 < r.slots.size := (Array.getElem?_eq_some_iff.1 forward).1
  obtain ⟨w, read, home, rh, k, walk, at_home, value, same⟩ :=
    (forwards_resolve unlinked_reachable).2.2 2 r 0 found inside
  cases known.symm.trans read
  exact ⟨r, _, found, entry, forward, proto, rfl, rfl, known, home, rh, k, walk, at_home, value, same 0 entry⟩

end Machine

end Gradual
