import Gradual.Proofs.Machine.Edits
import Gradual.Proofs.Machine.Forwarding

/-!
Placed slots never move. Whatever a host does, and however its operations end, records keep their kinds, tags and
slots, published layouts stay as they are, and only literals of one type share a layout. Main statement:
`Reachable.placed`.
-/
namespace Gradual.Machine

variable {m m' : Machine}

theorem storable_all : Storable fun _ => True := fun _ _ _ _ => trivial

theorem Reachable.holds (reachable : m.Reachable) : m.Holds fun _ => True := by
  induction reachable with
  | initial => exact Heap.holds_empty
  | step before offer ih => exact offer.holds before.valid storable_all ih fun _ _ => trivial

/-- The run lemma. -/
theorem Leads.stays (leads : m.Leads m') (reachable : m.Reachable) {ref : Ref} {r : Record}
    (found : m.heap.get? ref = some r) : ∃ r', m'.heap.get? ref = some r' ∧ r.Stays r' := by
  induction leads with
  | refl => exact ⟨r, found, .refl r⟩
  | step before offer ih =>
    obtain ⟨r', found', stays⟩ := ih
    have holds := (reachable.leads before).holds
    obtain ⟨r'', found'', stays'⟩ := offer.stays storable_all holds (fun _ _ => trivial) found'
    exact ⟨r'', found'', stays.trans stays'⟩

/-- A layout with the origin of another one is that of the literals of one type. -/
theorem Holds.shared {Stored : Word → Prop} (holds : m.Holds Stored) {ref ref' : Ref} {r r' : Record}
    {l l' : FixedLayout} (found : m.heap.get? ref = some r) (found' : m.heap.get? ref' = some r') (other : ref ≠ ref')
    (here : r.layout = some l) (here' : r'.layout = some l') (same : l.origin = l'.origin) :
    ∃ t, l.origin = .literal t ∧ r.tag = some t ∧ r'.tag = some t ∧ l = l' := by
  obtain own | ⟨t, tag, origin, table⟩ := (holds.laid found).origin l here
  · obtain own' | ⟨t', _, origin', _⟩ := (holds.laid found').origin l' here'
    · rw [own, own'] at same
      exact absurd (LayoutOrigin.migrated.inj same) other
    · rw [own, origin'] at same
      cases same
  · obtain own' | ⟨t', tag', origin', table'⟩ := (holds.laid found').origin l' here'
    · rw [origin, own'] at same
      cases same
    · rw [origin, origin'] at same
      cases same
      refine ⟨t, origin, tag, tag', ?_⟩
      have tables : l.table = l'.table := Except.ok.inj (table.symm.trans table')
      have origins : l.origin = l'.origin := origin.trans origin'.symm
      cases l
      cases l'
      exact congrArg₂ FixedLayout.mk origins tables

/-- Placed slots never move. Between any two states of a run records stay where they are and keep their kinds, their
tags once they have one, and the slot of every property that has one; a published layout stays as it is. In every
state, records that share a layout are literals of one type. -/
theorem Reachable.placed (reachable : m.Reachable) (leads : m.Leads m') :
    (∀ ref r, m.heap.get? ref = some r → ∃ r', m'.heap.get? ref = some r' ∧
      r'.kind = r.kind ∧ r'.word ref = r.word ref ∧ (∀ t, r.tag = some t → r'.tag = some t) ∧
      (∀ id i, r.slotOf? id = some i → r'.slotOf? id = some i) ∧
      ∀ l, r.layout = some l → ∃ l', r'.layout = some l' ∧ l'.origin = l.origin ∧
        l.table.entries <+: l'.table.entries ∧ (l.table.published = true → l' = l)) ∧
    ∀ ref ref' r r' l l', m'.heap.get? ref = some r → m'.heap.get? ref' = some r' → ref ≠ ref' →
      r.layout = some l → r'.layout = some l' → l.origin = l'.origin →
      ∃ t, l.origin = .literal t ∧ r.tag = some t ∧ r'.tag = some t ∧ l = l' := by
  refine ⟨fun ref r found => ?_, fun ref ref' r r' l l' found found' other here here' same =>
    (reachable.leads leads).holds.shared found found' other here here' same⟩
  obtain ⟨r', found', stays⟩ := leads.stays reachable found
  refine ⟨r', found', stays.kind, by unfold Record.word; rw [stays.kind], stays.tag, fun id i slot => ?_,
    fun l here => ?_⟩
  · obtain ⟨l, here, entry⟩ := Option.bind_eq_some_iff.1 slot
    obtain ⟨l', here', same⟩ := stays.layout l here
    exact Option.bind_eq_some_iff.2 ⟨l', here', same.slot? entry⟩
  · obtain ⟨l', here', same⟩ := stays.layout l here
    exact ⟨l', here', same.origin, same.entries, same.published⟩

/-- The object whose migration failed is coerced again, and a second literal is made. -/
def settled : Machine :=
  (Run.newLiteral 6 [Word.ofInt 9]).after <| (Run.coerce (Word.objectRef 3) (some 8)).after unlinked

theorem unlinked_leads : unlinked.Leads settled := by
  have proper (t : TypeId) (member : t ∈ [0, 3, 5, 6, 7, 8]) : unlinked.types.Proper t := inheriting_proper t member
  refine .step (.step .refl (.coerce ?_ (proper 8 (by decide)))) (.newLiteral (proper 6 (by decide)) ?_)
  · exact ⟨_, rfl, fun _ same => by cases same; exact ⟨_, rfl, rfl⟩⟩
  · intro w member
    cases List.mem_singleton.1 member
    exact ⟨.int 9, rfl, nofun⟩

/-- The slot that the second object shares, the tag that the third one was left with, and two literals. -/
theorem Reachable.placed_unlinked :
    (∃ r, settled.heap.get? 2 = some r ∧ r.slotOf? 0 = some 0) ∧
    (∃ r, settled.heap.get? 3 = some r ∧ r.tag = some 8) ∧
    ∃ r r' l l', settled.heap.get? 1 = some r ∧ settled.heap.get? 4 = some r' ∧ r.layout = some l ∧
      r'.layout = some l' ∧ l.origin = .literal 6 ∧ l = l' := by
  obtain ⟨stay, share⟩ := placed unlinked_reachable unlinked_leads
  obtain ⟨r₂, at_two, _, _, _, slots, _⟩ := stay 2 _ rfl
  obtain ⟨r₃, at_three, _, _, tag, _⟩ := stay 3 _ rfl
  obtain ⟨t, origin, _, _, same⟩ := share 1 4 _ _ _ _ rfl rfl (by decide) rfl rfl rfl
  exact ⟨⟨r₂, at_two, slots 0 0 rfl⟩, ⟨r₃, at_three, tag 8 rfl⟩, _, _, _, _, rfl, rfl, rfl, rfl, rfl, same⟩

end Gradual.Machine
