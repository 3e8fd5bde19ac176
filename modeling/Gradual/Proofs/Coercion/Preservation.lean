import Gradual.Proofs.Machine.Reachable

/-!
Coercion keeps the data of the machine, also when it fails midway: the state it leaves answers every
read as the state before did, up to wrappers around untyped closures.
-/
namespace Gradual

namespace Run

variable {m : Machine} {w : Word} {ref : Ref} {r : Record} {id : PropId}

theorem hasOwn_eq (valid : m.Valid) (known : w.decode? = some (.object ref) ∨ w.decode? = some (.closure ref))
    (found : m.heap.get? ref = some r) (named : m.types.names.name id ≠ "") :
    hasOwn w id m = .ok (m.own? r id).isSome m := by
  apply Ends.eq_ok
  rcases known with known | known <;>
    simp [hasOwn, propRecord, ends_decode known, ends_recordAt found, ends_lookupOwn valid found named]

end Run

namespace Machine

structure KeepsData (m m' : Machine) : Prop where
  /-- A property reads as before or as a new closure that wraps the untyped closure it was. -/
  reads : ∀ {ref : Ref} {r : Record} {obj : Word} {id : PropId}, m.heap.get? ref = some r →
    (obj.decode? = some (.object ref) ∨ obj.decode? = some (.closure ref)) → m.types.names.name id ≠ "" →
    ∃ v v', Run.getProp obj id m = .ok v m ∧ Run.getProp obj id m' = .ok v' m' ∧ Kept m.heap.size m'.heap v v'
  /-- Own properties stay, and only an untyped record takes new ones: it shares them with its prototype. -/
  owns : ∀ {ref : Ref} {r : Record} {obj : Word} {id : PropId}, m.heap.get? ref = some r →
    (obj.decode? = some (.object ref) ∨ obj.decode? = some (.closure ref)) → m.types.names.name id ≠ "" →
    ∃ own own' r', Run.hasOwn obj id m = .ok own m ∧ Run.hasOwn obj id m' = .ok own' m' ∧
      m'.heap.get? ref = some r' ∧ (own = true → own' = true) ∧
      (own' = true → own = true ∨ (r.tag = none ∧ m'.Shares r' id))
  elements : ∀ {ref : Ref} {r : Record} {d : Deque}, m.heap.get? ref = some r → r.elems? = some d →
    ∃ r' d', m'.heap.get? ref = some r' ∧ r'.elems? = some d' ∧ d'.size = d.size ∧
      ∀ i, Kept m.heap.size m'.heap (d.get i) (d'.get i)
  /-- Links and boxes stay, and so do strings and closures with their code and environments. -/
  records : ∀ {ref : Ref} {r : Record}, m.heap.get? ref = some r → ∃ r', m'.heap.get? ref = some r' ∧
    r'.kind = r.kind ∧ r'.proto = r.proto ∧ r'.cell = r.cell ∧
    (r.kind ≠ .object → r.kind ≠ .array → r'.body = r.body)
  /-- New records are wrappers. -/
  fresh : ∀ {ref : Nat} {r : Record}, m.heap.size < ref → m'.heap.get? ref = some r → ∃ old, r.Wraps old
  stack : m'.args = m.args ∧ m'.lastReturn = m.lastReturn

variable {m m' : Machine}

theorem Evolves.keepsData (valid : m.Valid) (evolves : m.Evolves m.heap.size none m') : m.KeepsData m' where
  reads {ref r obj id} found known named := by
    obtain ⟨r', found', _⟩ := evolves.records found
    have named' : m'.types.names.name id ≠ "" := evolves.types ▸ named
    refine ⟨_, _, Run.getProp_eq valid known found named, Run.getProp_eq evolves.valid known found' named', ?_⟩
    have kept := evolves.lookup? valid named found
    generalize m.lookup? ref id = before at kept
    generalize m'.lookup? ref id = after at kept
    cases kept with
    | some kept => exact kept
    | none => exact .same
  owns {ref r obj id} found known named := by
    obtain ⟨r', found', record⟩ := evolves.records found
    have named' : m'.types.names.name id ≠ "" := evolves.types ▸ named
    refine ⟨_, _, r', Run.hasOwn_eq valid known found named, Run.hasOwn_eq evolves.valid known found' named', found',
      fun own => ?_, fun own' => ?_⟩
    · obtain ⟨v, own⟩ := Option.isSome_iff_exists.1 own
      obtain ⟨v', own', _⟩ := record.own named own
      rw [own']
      rfl
    · obtain ⟨v', own'⟩ := Option.isSome_iff_exists.1 own'
      cases own : m.own? r id with
      | some v => exact .inl rfl
      | none =>
        obtain ⟨how, shares⟩ := record.grown named own own'
        exact .inr ⟨how.resolve_right nofun, shares⟩
  elements found elems := by
    obtain ⟨r', found', record⟩ := evolves.records found
    obtain ⟨d', elems', size, kept⟩ := record.elems? elems
    exact ⟨r', d', found', elems', size, kept⟩
  records {ref r} found := by
    obtain ⟨r', found', record⟩ := evolves.records found
    refine ⟨r', found', record.kind, record.proto, record.cell, fun object array => ?_⟩
    refine record.body.eq (fun s body => object ?_) fun d body => array ?_
    all_goals simp [Record.kind, body]
  fresh := evolves.fresh
  stack := by
    rw [evolves.frame]
    exact ⟨rfl, rfl⟩

end Machine

namespace Run

variable {m : Machine} {w : Word} {t : TypeId}

/-- Coercion ends with a value, a violation or a full heap, and keeps all data in any case. -/
theorem coerce_keepsData (reachable : m.Reachable) (genuine : m.heap.Genuine w) (proper : m.types.Proper t) :
    Ends (coerce w (some t)) m (fun _ m' => m.KeepsData m') fun f m' => f.Expected ∧ m.KeepsData m' :=
  (ends_coerce reachable.valid genuine proper).mono
    (fun _ _ coerced => coerced.evolves.keepsData reachable.valid)
    fun _ _ fault => ⟨fault.1, fault.2.keepsData reachable.valid⟩

/-- A coercion that fails midway keeps all data too. -/
theorem coerce_keepsData_inheriting : ∃ v m',
    coerce (Word.objectRef 2) (some 8) Machine.inheriting = .error (.violation v) m' ∧ m'.heap.size = 2 ∧
      Machine.inheriting.KeepsData m' := by
  have ends := coerce_keepsData (t := 8) Machine.inheriting_reachable (Machine.inheriting_genuine 2 (by decide))
    (Machine.inheriting_proper 8 (by decide))
  exact ⟨_, _, rfl, rfl, ends.2⟩

end Run

end Gradual
