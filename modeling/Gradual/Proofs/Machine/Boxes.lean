import Gradual.Proofs.Machine.Edits

/-!
Boxes among properties. A write of a property refuses a box, and coercions and links only pass on what properties
hold. The one way in is an object literal, which takes any values. So as long as no literal is given a box none
is read from a property, and one that is given a box hands it out. Main statement: `Unboxed.getProp_isBox_iff`.
-/
namespace Gradual

def Word.IsBox (w : Word) : Prop := ∃ ref, w.decode? = some (.box ref)

theorem storable_unboxed : Storable fun w => ¬ w.IsBox := by
  rintro w v known other ⟨ref, box⟩
  cases known.symm.trans box
  exact other rfl

/-- Properties take the slots in the order of declaration. -/
theorem Layout.slot?_zipIdx {ids : List PropId} (distinct : ids.Nodup) {k : Nat} {id : PropId}
    (listed : ids[k]? = some id) (published : Bool) : slot? ⟨ids.zipIdx, published⟩ id = some k := by
  cases entry : slot? ⟨ids.zipIdx, published⟩ id with
  | none =>
    have absent := slot?_eq_none.1 entry
    rw [List.zipIdx_map_fst] at absent
    exact absurd (List.mem_of_getElem? listed) absent
  | some i =>
    have there : ids[i]? = some id := List.mem_zipIdx_iff_getElem?.1 (Record.mem_of_slot? entry)
    obtain ⟨inside, _⟩ := List.getElem?_eq_some_iff.1 there
    rw [(List.getElem?_inj inside distinct).1 (there.trans listed.symm)]

/-- The object itself comes first on the way of a look-up. -/
theorem Heap.chain_some {h : Heap} {ref : Ref} {r : Record} (found : h.get? ref = some r) :
    ∃ rest, h.chain (some ref) = ref :: rest := by
  have bounds := get?_bounds found
  unfold chain
  cases size : h.size with
  | zero => omega
  | succ n => exact ⟨_, rfl⟩

namespace Run

variable {Stored : Word → Prop} {m : Machine} {ref : Ref} {r : Record}

theorem looks_lookupOwn (holds : m.Holds Stored) (found : m.heap.get? ref = some r) (id : PropId) :
    Looks (lookupOwn r id) m fun x => ∀ w, x = some w → Stored w := by
  unfold lookupOwn
  split
  · refine (looks_readSlot holds found _).bind fun w stored => .pure fun _ same => ?_
    cases same
    exact stored
  · split
    · exact (looks_propName id).bind fun name _ => .pure fun w here => (holds.contents found).entries name w here
    · exact .pure fun _ same => by cases same

theorem looks_lookupAlong (storable : Storable Stored) (holds : m.Holds Stored) (id : PropId) (refs : List Ref) :
    Looks (lookupAlong id refs) m Stored := by
  induction refs with
  | nil => exact .pure (storable _ _ Word.decode?_undefined (by decide))
  | cons ref rest ih =>
    refine (looks_recordAt ref).bind fun r found => (looks_lookupOwn holds found id).bind fun x stored => ?_
    cases x with
    | none => exact ih
    | some w => exact .pure (stored w rfl)

/-- Only words that were stored are read from properties. -/
theorem looks_getProp (storable : Storable Stored) (holds : m.Holds Stored) (obj : Word) (id : PropId) :
    Looks (getProp obj id) m Stored :=
  (looks_propRecord _ obj).bind fun _ _ => .get (looks_lookupAlong storable holds id _)

/-- A literal that is refused changes nothing. -/
theorem ends_newLiteral (t : TypeId) (values : List Word) :
    Ends (newLiteral t values) m
      (fun obj m' => ∃ (r : Record) (ids : List PropId), ids.Nodup ∧ values.length = ids.length ∧
        r.slots = (values.map Slot.here).toArray ∧ r.layout = some ⟨.literal t, ⟨ids.zipIdx, true⟩⟩ ∧
        m.heap.size + 1 ≤ maxRef ∧ obj.decode? = some (.object (m.heap.size + 1)) ∧
        m' = { m with heap := m.heap.add r })
      fun _ m' => m' = m := by
  simp only [newLiteral, ends_bind, ends_node]
  cases m.types.graph.node t with
  | object props =>
    dsimp only
    split
    · rfl
    next count =>
      cases made : Layout.ofProperties (props.map (·.id)) with
      | error e => rfl
      | ok table =>
        obtain ⟨distinct, rfl⟩ := Layout.ofProperties_eq_ok made
        refine (ends_allocate _).2 ?_
        split
        next room =>
          refine ⟨_, _, distinct, ?_, rfl, rfl, room, ?_, rfl⟩
          · simpa using count
          · exact Word.objectRef_decode? (Nat.succ_ne_zero _) room
        next => rfl
  | _ => rfl

/-- An own property in a slot is read there. -/
theorem getProp_of_slot {obj w : Word} {id : PropId} {i : Nat} (known : obj.decode? = some (.object ref))
    (found : m.heap.get? ref = some r) (entry : r.slotOf? id = some i) (slot : r.slots[i]? = some (.here w)) :
    getProp obj id m = .ok w m := by
  obtain ⟨rest, chain⟩ := Heap.chain_some found
  apply Ends.eq_ok
  simp [getProp, propRecord, ends_decode known, ends_recordAt found, chain, lookupAlong, lookupOwn, entry, readSlot,
    slot, Heap.resolve, Heap.resolveWithin]

/-- A literal hands out the values it was made with. -/
theorem getProp_newLiteral {t : TypeId} {values : List Word} {obj w : Word} {m' : Machine}
    (made : newLiteral t values m = .ok obj m') (given : w ∈ values) : ∃ id, getProp obj id m' = .ok w m' := by
  obtain ⟨r, ids, distinct, count, slots, layout, room, known, rfl⟩ := (ends_newLiteral t values).of_ok made
  obtain ⟨k, value⟩ := List.mem_iff_getElem?.1 given
  obtain ⟨inside, _⟩ := List.getElem?_eq_some_iff.1 value
  obtain ⟨id, listed⟩ : ∃ id, ids[k]? = some id := ⟨_, List.getElem?_eq_getElem (count ▸ inside)⟩
  have entry : r.slotOf? id = some k := by
    rw [Record.slotOf?, layout]
    exact Layout.slot?_zipIdx distinct listed true
  refine ⟨id, getProp_of_slot known ?_ entry ?_⟩
  · rw [Heap.get?_add, if_pos rfl]
  · simp [slots, value]

end Run

namespace Machine

variable {m : Machine}

/-- States that a host reaches without giving a box to an object literal. -/
inductive Unboxed : Machine → Prop where
  | initial (hash : String → UInt64) (limits : Limits) (oracle : Oracle) {types : TypeStore}
      (distinct : types.names.names.toList.Nodup) : Unboxed (Machine.initial hash limits oracle types)
  | step {α : Type} {act : Run α} {m : Machine} (before : Unboxed m) (offer : m.Offers act)
      (puts : ∀ w, act.Puts w → ¬ w.IsBox) : Unboxed (act.after m)

theorem Unboxed.reachable (unboxed : m.Unboxed) : m.Reachable := by
  induction unboxed with
  | initial hash limits oracle distinct => exact .initial hash limits oracle distinct
  | step _ offer _ ih => exact .step ih offer

theorem Unboxed.holds (unboxed : m.Unboxed) : m.Holds fun w => ¬ w.IsBox := by
  induction unboxed with
  | initial => exact Heap.holds_empty
  | step before offer puts ih => exact offer.holds before.reachable.valid storable_unboxed ih puts

theorem Holds.getProp_unboxed (holds : m.Holds fun w => ¬ w.IsBox) {obj w : Word} {id : PropId} {n : Machine}
    (read : Run.getProp obj id m = .ok w n) : ¬ w.IsBox :=
  ((Run.looks_getProp storable_unboxed holds obj id).of_ok read).2

/-- As long as no object literal is given a box, none is read from a property. After one more operation, whatever it
is, a box can be read if and only if this was a literal that was given one, and it was made. -/
theorem Unboxed.getProp_isBox_iff (unboxed : m.Unboxed) :
    (∀ obj id w n, Run.getProp obj id m = .ok w n → ¬ w.IsBox) ∧
    ∀ {α : Type} {act : Run α}, m.Offers act →
      ((∃ obj id w n, Run.getProp obj id (act.after m) = .ok w n ∧ w.IsBox) ↔
        (∃ a n, act m = .ok a n) ∧ ∃ w, act.Puts w ∧ w.IsBox) := by
  refine ⟨fun _ _ _ _ read => unboxed.holds.getProp_unboxed read, fun {α act} offer => ⟨?_, ?_⟩⟩
  · rintro ⟨obj, id, w, n, read, box⟩
    by_contra other
    refine Holds.getProp_unboxed ?_ read box
    by_cases puts : ∃ w, act.Puts w ∧ w.IsBox
    · cases ended : act m with
      | ok a m' => exact absurd ⟨⟨a, m', ended⟩, puts⟩ other
      | error f m' =>
        obtain ⟨v, put, _⟩ := puts
        have same : act.after m = m := by
          cases put with
          | @literal t values =>
            have ends := Run.ends_newLiteral (m := m) t values
            rw [Run.Ends, ended] at ends
            rw [Run.after, ended]
            exact ends
        rw [same]
        exact unboxed.holds
    · exact offer.holds unboxed.reachable.valid storable_unboxed unboxed.holds fun w put box => puts ⟨w, put, box⟩
  · rintro ⟨⟨a, n, returned⟩, w, put, box⟩
    have after : act.after m = n := by simp [Run.after, returned]
    rw [after]
    cases put with
    | literal given =>
      obtain ⟨id, read⟩ := Run.getProp_newLiteral returned given
      exact ⟨a, id, w, n, read, box⟩

/-- The type `{x: top}` (6), and a box that holds an int. -/
def boxing : Machine :=
  (Run.newBox (Word.ofInt 7)).after <| Machine.initial (fun _ => 0) Limits.default Oracle.silent inheritingTypes

theorem boxing_unboxed : boxing.Unboxed := by
  refine .step (.initial _ _ _ (by decide)) (.newBox ⟨.int 7, rfl, nofun⟩) fun w put => ?_
  -- a literal would fail on a machine without types
  generalize made : Run.newBox (Word.ofInt 7) = act at put
  cases put with
  | literal => cases congrFun made (Machine.initial (fun _ => 0) Limits.default Oracle.silent ⟨⟨#[]⟩, ⟨#[]⟩⟩)

/-- A literal is given the box, and its property `x` is the box. -/
theorem Unboxed.getProp_isBox_iff_boxing : ∃ obj id w n,
    Run.getProp obj id ((Run.newLiteral 6 [Word.boxRef 1]).after boxing) = .ok w n ∧ w.IsBox := by
  have offer : boxing.Offers (Run.newLiteral 6 [Word.boxRef 1]) := by
    refine .newLiteral (inheriting_proper 6 (by decide)) fun w member => ?_
    cases List.mem_singleton.1 member
    exact ⟨.box 1, rfl, fun _ same => by cases same; exact ⟨_, rfl, rfl⟩⟩
  apply ((getProp_isBox_iff boxing_unboxed).2 offer).2
  exact ⟨⟨_, _, rfl⟩, Word.boxRef 1, .literal List.mem_cons_self, 1, rfl⟩

end Machine

end Gradual
