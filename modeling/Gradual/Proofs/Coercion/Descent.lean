import Gradual.Proofs.Coercion.Migration

/-!
Coercion of whole values. Each kind of type has its lemma, given that parts are coerced faithfully, and
`coerceWithin_faithful` ties the knot by induction on the levels of nesting that are left.
-/
namespace Gradual

namespace Machine

variable {m : Machine} {w : Word} {t tag : TypeId} {ref : Ref} {r : Record}

theorem fits_undefined : m.Fits Word.undefined t := .inl (by simp)

theorem fits_null (null : w.decode? = some .null) (reference : (m.types.graph.node t).Structured ∨
    ∃ sig, m.types.graph.node t = .closure sig) : m.Fits w t := by
  refine .inr ?_
  cases shape : m.types.graph.node t with
  | closure | object | array | map => exact .inl null
  | _ => simp [shape, Node.Structured] at reference

theorem fits_closure {sig : Signature} (shape : m.types.graph.node t = .closure sig)
    (known : w.decode? = some (.closure ref)) (found : m.heap.get? ref = some r) (tagged : r.tag = some tag)
    (sub : m.types.graph.Subtype m.limits.variance tag t) : m.Fits w t := by
  refine .inr ?_
  rw [shape]
  exact .inr ⟨ref, known, r, tag, found, tagged, sub⟩

theorem fits_object {props : List Property} (shape : m.types.graph.node t = .object props)
    (known : w.decode? = some (.object ref)) (found : m.heap.get? ref = some r) (tagged : r.tag = some tag)
    (sub : m.types.graph.Subtype m.limits.variance tag t) : m.Fits w t := by
  refine .inr ?_
  rw [shape]
  exact .inr ⟨ref, known, r, tag, found, tagged, sub⟩

theorem fits_container {elem : Child}
    (shape : m.types.graph.node t = .array elem ∨ m.types.graph.node t = .map elem)
    (known : w.decode? = some (.object ref)) (found : m.heap.get? ref = some r) (tagged : r.tag = some tag)
    (equal : m.types.graph.Equal tag t) : m.Fits w t := by
  refine .inr ?_
  rcases shape with shape | shape <;> rw [shape] <;> exact .inr ⟨ref, known, r, tag, found, tagged, equal⟩

end Machine

/-- Only closures are ever replaced. -/
theorem Kept.eq_of_object {base : Nat} {h : Heap} {v w : Word} {ref : Ref} (kept : Kept base h v w)
    (known : v.decode? = some (.object ref)) : w = v := by
  cases kept with
  | same => rfl
  | wrapped untyped => cases known.symm.trans untyped

/-- The elements of an array stay in place. -/
theorem Record.Evolves.elems? {base : Nat} {m m' : Machine} {free : Prop} {r r' : Record} {d : Deque}
    (record : r.Evolves base m m' free r') (elems : r.elems? = some d) :
    ∃ d', r'.elems? = some d' ∧ d'.size = d.size ∧ ∀ i, Kept base m'.heap (d.get i) (d'.get i) := by
  have body := record.body
  rw [Record.elems?_eq_some.1 elems] at body
  generalize after : r'.body = b at body
  cases body with
  | same => exact ⟨d, Record.elems?_eq_some.2 after, rfl, fun _ => .same⟩
  | array size kept => exact ⟨_, Record.elems?_eq_some.2 after, size, kept⟩

def Record.element? (r : Record) (i : Nat) : Option Word :=
  r.elems?.bind fun d => if i < d.size then some (d.get i) else none

theorem Record.element?_eq_some {r : Record} {i : Nat} {w : Word} (present : r.element? i = some w) :
    ∃ d, r.elems? = some d ∧ i < d.size := by
  obtain ⟨d, elems, inside⟩ := Option.bind_eq_some_iff.1 present
  exact ⟨d, elems, (Option.ite_none_right_eq_some.1 inside).1⟩

theorem Record.Evolves.element? {base : Nat} {m m' : Machine} {free : Prop} {r r' : Record} {d : Deque}
    (record : r.Evolves base m m' free r') (elems : r.elems? = some d) (i : Nat) :
    Option.Rel (Kept base m'.heap) (r.element? i) (r'.element? i) := by
  obtain ⟨d', elems', size, kept⟩ := record.elems? elems
  rw [Record.element?, Record.element?, elems, elems', Option.bind_some, Option.bind_some, size]
  split
  · exact .some (kept i)
  · exact .none

namespace Run

variable {base : Nat} {recur : Recur} {m : Machine} {w : Word} {t : TypeId} {ref : Ref} {r : Record}

theorem coerced_mismatch {α : Type} {ok : α → Machine → Prop} (valid : m.Valid) (genuine : m.heap.Genuine w) :
    Ends (mismatch w (some t)) m ok fun f m' => f.Raised m' ∧ m.Evolves base none m' :=
  ends_mismatch genuine _ (fault_violation (.refl valid))

/-- An untyped closure is wrapped in a new record. -/
theorem ends_importClosure {sig : Signature} (valid : m.Valid) (large : base ≤ m.heap.size)
    (known : w.decode? = some (.closure ref)) (found : m.heap.get? ref = some r) (callable : r.kind.isCallable)
    (untagged : r.tag = none) (proper : m.types.Proper t) (shape : m.types.graph.node t = .closure sig) :
    Ends (importClosure ref t sig) m (Coerced base m w t) fun f m' => f.Raised m' ∧ m.Evolves base none m' := by
  have formed := proper.wellFormed.node
  rw [shape] at formed
  have count : 0 ≤ sig.explicitCount := formed.length_explicit ▸ Int.natCast_nonneg _
  simp only [importClosure]
  split
  next => exact fault_violation (.refl valid) _
  simp only [if_neg (not_lt.2 count)]
  rw [ends_allocate]
  split
  next room =>
    let wrapper := Record.wrapper sig.explicitCount.toNat ref t
    have imports : m.Imports sig.explicitCount.toNat ref t :=
      ⟨sig, r, shape, (Int.toNat_of_nonneg count).symm, found, callable, untagged⟩
    have evolves : m.Evolves base none { m with heap := m.heap.add wrapper } :=
      .wrapped valid proper shape imports room
    have old {x : Ref} {rx : Record} (present : m.heap.get? x = some rx) : (m.heap.add wrapper).get? x = some rx :=
      Heap.get?_add_old present wrapper
    have new : (m.heap.add wrapper).get? (m.heap.size + 1) = some wrapper := by rw [Heap.get?_add, if_pos rfl]
    have typed : (wrapper.word (m.heap.size + 1)).decode? = some (.closure (m.heap.size + 1)) :=
      wrapper.word_decode? (Nat.succ_ne_zero _) room
    refine ⟨evolves, .wrapped known (old found) callable untagged typed (Nat.lt_succ_of_le large) new
      (Record.wrapper_wraps _ _ _), .inl fun _ _ => old, fun _ x rx u present tag => ?_, fun _ => ?_⟩
    · by_cases last : x = m.heap.size + 1
      · subst last
        cases new.symm.trans present
        cases tag
        refine .inr ⟨rfl, ?_⟩
        rw [Machine.Upholds, show ({ m with heap := _ } : Machine).types.graph.node t = _ from shape]
        trivial
      · rw [Heap.get?_add, if_neg last] at present
        exact .inl ⟨rx, present, by rw [tag]; rfl⟩
    · exact Machine.fits_closure (m := { m with heap := m.heap.add wrapper }) shape typed new rfl
        (.refl proper.wellFormed)
  next full => exact ⟨Nat.le_of_lt_succ (Nat.lt_of_not_le full), .refl valid⟩

/-- A tag is suitable if it is the type itself or the checker says so. -/
theorem ends_suitable {rel : Relation} {tag : TypeId} (valid : m.Valid) (genuine : m.heap.Genuine w)
    (formed : m.types.graph.WellFormed tag) (proper : m.types.Proper t) (identical : tag = t → m.Fits w t)
    (accepted : m.oracle.Truthful m.types.graph m.limits.variance →
      (m.checker.decide m.types.graph rel (some tag) (some t)).result = .ok true → m.Fits w t) :
    Ends (do if tag = t then return w
             if ← verdict rel (some tag) (some t) then return w
             mismatch w (some t)) m
      (Coerced base m w t) fun f m' => f.Raised m' ∧ m.Evolves base none m' := by
  split
  next same => exact .same valid fun _ => identical same
  next =>
    rw [ends_bind]
    refine ends_verdict formed proper.wellFormed (fun yes result => ?_) (fault_violation (.refl valid) _)
    split
    next yes =>
      rw [yes] at result
      exact .same valid fun truthful => accepted truthful result
    next => exact coerced_mismatch valid genuine

theorem ends_coerceClosure {sig : Signature} (valid : m.Valid) (large : base ≤ m.heap.size)
    (genuine : m.heap.Genuine w) (proper : m.types.Proper t) (shape : m.types.graph.node t = .closure sig) :
    Ends (coerceClosure w t sig) m (Coerced base m w t) fun f m' => f.Raised m' ∧ m.Evolves base none m' := by
  obtain ⟨v, known, _⟩ := id genuine
  simp only [coerceClosure, ends_bind, ends_decode known]
  cases v with
  | null => exact .same valid fun _ => Machine.fits_null known (.inr ⟨sig, shape⟩)
  | closure ref =>
    obtain ⟨r, found, callable⟩ := genuine.closure known
    simp only [ends_bind, ends_recordAt found]
    cases tag : r.tag with
    | some tag' =>
      have formed := ((valid.records found).tagged tag' tag).1.wellFormed
      have fits := Machine.fits_closure shape known found tag
      exact ends_suitable valid genuine formed proper (fun same => fits (same ▸ .refl formed))
        fun truthful yes => fits (Machine.subtype_of_decide truthful formed proper.wellFormed yes)
    | none =>
      dsimp only
      split
      next =>
        rw [ends_bind]
        exact coerced_mismatch valid genuine
      next => exact ends_importClosure valid large known found callable tag proper shape
  | _ => exact coerced_mismatch valid genuine

/-- Only objects have object types. -/
theorem kind_of_subtype {props : List Property} {tag : TypeId} (valid : m.Valid) (found : m.heap.get? ref = some r)
    (tagged : r.tag = some tag) (shape : m.types.graph.node t = .object props)
    (sub : m.types.graph.Subtype m.limits.variance tag t) : r.kind = .object := by
  have suits := ((valid.records found).tagged tag tagged).2
  have parts := sub.parts
  rw [shape] at parts
  generalize m.types.graph.node tag = n at suits parts
  cases n with
  | object => exact suits.1
  | _ => exact parts.elim

/-- A record with a tag needs a suitable one, and an object without a tag is given a layout. -/
theorem ends_coerceRecord (faithful : Faithful base recur) {props : List Property} (valid : m.Valid)
    (large : base ≤ m.heap.size) (genuine : m.heap.Genuine w) (proper : m.types.Proper t)
    (shape : m.types.graph.node t = .object props) (found : m.heap.get? ref = some r)
    (object : r.kind = .object → w.decode? = some (.object ref)) :
    Ends (do let r ← recordAt ref
             match r.tag with
             | some tag =>
               if tag = t then return w
               if ← verdict .subtype (some tag) (some t) then return w
               mismatch w (some t)
             | none =>
               if r.kind ≠ .object then mismatch w (some t)
               migrate recur ref t
               return w) m
      (Coerced base m w t) fun f m' => f.Raised m' ∧ m.Evolves base none m' := by
  rw [ends_bind, ends_recordAt found]
  cases tag : r.tag with
  | some tag' =>
    have formed := ((valid.records found).tagged tag' tag).1.wellFormed
    have fits (sub : m.types.graph.Subtype m.limits.variance tag' t) : m.Fits w t :=
      Machine.fits_object shape (object (kind_of_subtype valid found tag shape sub)) found tag sub
    exact ends_suitable valid genuine formed proper (fun same => fits (same ▸ .refl formed))
      fun truthful yes => fits (Machine.subtype_of_decide truthful formed proper.wellFormed yes)
  | none =>
    dsimp only
    split
    next =>
      rw [ends_bind]
      exact coerced_mismatch valid genuine
    next kind =>
      have known := object (not_not.1 kind)
      rw [ends_bind]
      refine (ends_migrate faithful valid large found tag (not_not.1 kind) proper shape).mono (fun _ m' done => ?_)
        fun _ _ fault => fault
      obtain ⟨evolves, ⟨r', found', tag'⟩, settled⟩ := done
      refine ⟨evolves, .same, .inr fun _ kept => kept.eq_of_object known, settled, fun _ => ?_⟩
      exact Machine.fits_object (evolves.types ▸ shape) known found' tag' (.refl (evolves.types ▸ proper.wellFormed))

theorem ends_coerceObject (faithful : Faithful base recur) {props : List Property} (valid : m.Valid)
    (large : base ≤ m.heap.size) (genuine : m.heap.Genuine w) (proper : m.types.Proper t)
    (shape : m.types.graph.node t = .object props) :
    Ends (coerceObject recur w t) m (Coerced base m w t) fun f m' => f.Raised m' ∧ m.Evolves base none m' := by
  obtain ⟨v, known, leads⟩ := id genuine
  simp only [coerceObject, ends_bind, ends_decode known]
  split
  next => exact .same valid fun _ => Machine.fits_null known (.inl (by rw [shape]; trivial))
  next ref =>
    obtain ⟨r, found, _⟩ := genuine.object known
    exact ends_coerceRecord faithful valid large genuine proper shape found fun _ => known
  next ref =>
    obtain ⟨r, found, callable⟩ := genuine.closure known
    refine ends_coerceRecord faithful valid large genuine proper shape found fun kind => ?_
    rw [kind] at callable
    cases callable
  next => exact coerced_mismatch valid genuine

theorem ends_sameContainer {elem : Child} {tag : TypeId} (valid : m.Valid) (genuine : m.heap.Genuine w)
    (proper : m.types.Proper t) (shape : m.types.graph.node t = .array elem ∨ m.types.graph.node t = .map elem)
    (known : w.decode? = some (.object ref)) (found : m.heap.get? ref = some r) (tagged : r.tag = some tag) :
    Ends (sameContainer w tag t) m (Coerced base m w t) fun f m' => f.Raised m' ∧ m.Evolves base none m' := by
  have formed := ((valid.records found).tagged tag tagged).1.wellFormed
  have fits := Machine.fits_container shape known found tagged
  exact ends_suitable valid genuine formed proper (fun same => fits (same ▸ .refl formed))
    fun truthful yes => fits (Machine.equal_of_decide truthful formed proper.wellFormed yes)

structure PartsOf {κ : Type} (types : TypeStore) (t u : TypeId) (part : Record → κ → Option Word) : Prop where
  stable : ∀ {base : Nat} {m m' : Machine} {ref : Ref} {r r' : Record}, m.Valid → m.types = types →
    m.Evolves base none m' → m.heap.get? ref = some r → r.tag = some t → m'.heap.get? ref = some r' →
    ∀ k, Option.Rel (Kept base m'.heap) (part r k) (part r' k)
  upholds : ∀ {m : Machine} {ref : Ref} {r : Record}, m.types = types →
    (∀ k v, part r k = some v → m.Fits v u) → m.Upholds ref r t

theorem PartsOf.array {types : TypeStore} {u : TypeId} (shape : types.graph.node t = .array (some u)) :
    PartsOf types t u Record.element? where
  stable {base m m' ref r r'} valid same evolves found tag found' i := by
    have suits := ((valid.records found).tagged t tag).2
    rw [same, shape] at suits
    obtain ⟨_, found'', record⟩ := evolves.records found
    cases found'.symm.trans found''
    obtain ⟨d, elems⟩ := Record.elems?_of_kind suits.1
    exact record.element? elems i
  upholds {m ref r} same fits := by
    rw [Machine.Upholds, same, shape]
    refine fun d elems i inside => ⟨u, rfl, fits i _ ?_⟩
    rw [Record.element?, elems, Option.bind_some, if_pos inside]

theorem PartsOf.map {types : TypeStore} {u : TypeId} (shape : types.graph.node t = .map (some u)) :
    PartsOf types t u Record.dynGet? where
  stable {base m m' ref r r'} valid same evolves found tag found' name := by
    obtain ⟨_, found'', record⟩ := evolves.records found
    cases found'.symm.trans found''
    have suits := ((evolves.valid.records found').tagged t (record.tag t tag)).2
    rw [evolves.types, same, shape] at suits
    exact record.store suits.2.1 name
  upholds {m ref r} same fits := by
    rw [Machine.Upholds, same, shape]
    exact fun name v present => ⟨u, rfl, fits name v present⟩

def PartDone {κ : Type} (part : Record → κ → Option Word) (base : Nat) (m : Machine) (ref : Ref) (u : TypeId)
    (k : κ) (m' : Machine) : Prop :=
  m.Evolves base none m' ∧ (m.Trusted → m.Settled m' ∧
    ∀ r v, m'.heap.get? ref = some r → part r k = some v → m'.Fits v u)

def PartStep {κ : Type} (part : Record → κ → Option Word) (base : Nat) (types : TypeStore) (ref : Ref) (t u : TypeId)
    (act : κ → Run Unit) : Prop :=
  ∀ (k : κ) (m : Machine) (r : Record) (v : Word), m.Valid → m.types = types → base ≤ m.heap.size →
    m.heap.get? ref = some r → r.tag = some t →
    part r k = some v → Ends (act k) m (fun _ => PartDone part base m ref u k)
      fun f m' => f.Raised m' ∧ m.Evolves base none m'

variable {κ : Type} {part : Record → κ → Option Word} {act : κ → Run Unit} {u : TypeId} {ks : List κ}

/-- The parts of a container are coerced one after the other. -/
theorem ends_parts {types : TypeStore} (parts : PartsOf types t u part)
    (step : PartStep part base types ref t u act) (valid : m.Valid) (same : m.types = types)
    (large : base ≤ m.heap.size) (found : m.heap.get? ref = some r) (tag : r.tag = some t)
    (keys : ∀ k, k ∈ ks ↔ (part r k).isSome) :
    Ends (ks.forM act) m
      (fun _ m' => m.Evolves base none m' ∧ (m.Trusted → m.Settled m' ∧
        ∀ r' k v, m'.heap.get? ref = some r' → part r' k = some v → m'.Fits v u))
      fun f m' => f.Raised m' ∧ m.Evolves base none m' := by
  let inv (rest : List κ) (m' : Machine) : Prop :=
    (∀ k ∈ rest, k ∈ ks) ∧ m.Evolves base none m' ∧ (m.Trusted → m.Settled m' ∧
      ∀ r' k v, m'.heap.get? ref = some r' → part r' k = some v → k ∈ rest ∨ m'.Fits v u)
  have start : inv ks m := by
    refine ⟨fun _ member => member, .refl valid, fun _ => ⟨.refl, fun r' k v found' present => .inl ?_⟩⟩
    cases found.symm.trans found'
    exact (keys k).2 (by rw [present]; rfl)
  refine (ends_forM inv ks (fun k rest m' before => ?_) start).mono (fun _ m' ⟨_, evolves, sound⟩ => ?_)
    fun _ _ fault => fault
  · obtain ⟨within, evolves, sound⟩ := before
    obtain ⟨r', found', record⟩ := evolves.records found
    have tag' := record.tag t tag
    obtain ⟨v₀, present₀⟩ := Option.isSome_iff_exists.1 ((keys k).1 (within k List.mem_cons_self))
    have stable := parts.stable valid same evolves found tag found' k
    rw [present₀] at stable
    obtain ⟨v, present, _⟩ := kept_of_rel stable
    refine (step k m' r' v evolves.valid (evolves.types.trans same) (large.trans evolves.size) found' tag'
      present).mono
      (fun _ m'' done => ?_) fun _ _ fault => ⟨fault.1, evolves.trans fault.2⟩
    refine ⟨fun x member => within x (.tail _ member), evolves.trans done.1, fun trusted => ?_⟩
    obtain ⟨settled, before⟩ := sound trusted
    obtain ⟨settled', here⟩ := done.2 (trusted.evolves valid evolves settled fun _ _ => nofun)
    refine ⟨settled.trans evolves.valid done.1 settled' nofun, fun r'' x v'' found'' present'' => ?_⟩
    have kept := parts.stable evolves.valid (evolves.types.trans same) done.1 found' tag' found'' x
    rw [present''] at kept
    obtain ⟨v', present', kept⟩ := kept_of_rel' kept
    rcases before r' x v' found' present' with waiting | fits
    · rcases List.mem_cons.1 waiting with rfl | later
      · exact .inr (here r'' v'' found'' present'')
      · exact .inl later
    · exact .inr ((fits.evolves done.1).kept kept)
  · refine ⟨evolves, fun trusted => ⟨(sound trusted).1, fun r' k v found' present => ?_⟩⟩
    exact ((sound trusted).2 r' k v found' present).resolve_left List.not_mem_nil

/-- An untyped container takes its tag, and then its parts are coerced. -/
theorem ends_container {elem : Child} (parts : PartsOf m.types t u part)
    (step : PartStep part base m.types ref t u act) (valid : m.Valid) (large : base ≤ m.heap.size)
    (proper : m.types.Proper t) (shape : m.types.graph.node t = .array elem ∨ m.types.graph.node t = .map elem)
    (known : w.decode? = some (.object ref)) (found : m.heap.get? ref = some r) (untagged : r.tag = none)
    (suits : Record.Suits { r with tag := some t } (m.types.graph.node t)) (kind : r.kind = .object ∨ r.kind = .array)
    (keys : ∀ k, k ∈ ks ↔ (part { r with tag := some t } k).isSome) :
    Ends (do updateRecord ref fun r => { r with tag := some t }
             ks.forM act
             return w) m
      (Coerced base m w t) fun f m' => f.Raised m' ∧ m.Evolves base none m' := by
  have tagging : m.Evolves base none { m with heap := m.heap.update ref fun r => { r with tag := some t } } :=
    .tagged valid found untagged proper suits kind
  have found₁ := Heap.get?_update_same found fun r => { r with tag := some t }
  have others {x : Ref} (other : x ≠ ref) := Heap.get?_update_ne (h := m.heap) other fun r => { r with tag := some t }
  simp only [ends_bind, ends_updateRecord, ends_pure]
  refine (ends_parts parts step tagging.valid rfl (large.trans tagging.size) found₁ rfl keys).mono
    (fun _ m' outcome => ?_) fun _ _ fault => ⟨fault.1, tagging.trans fault.2⟩
  obtain ⟨evolves, sound⟩ := outcome
  obtain ⟨r', found', record⟩ := evolves.records found₁
  have tag' := record.tag t rfl
  have types : m'.types = m.types := evolves.types
  refine ⟨tagging.trans evolves, .same, .inr fun _ kept => kept.eq_of_object known, fun trusted => ?_, fun _ => ?_⟩
  · have trusted₁ := trusted.tagging valid tagging (fun _ => others) fun r₂ t₂ props found₂ tag₂ object => by
      cases found₁.symm.trans found₂
      cases tag₂
      rcases shape with shape | shape <;> cases shape.symm.trans object
    obtain ⟨settled, fits⟩ := sound trusted₁
    refine settled.tagging (fun _ => others) fun r₂ t₂ found₂ tag₂ => ?_
    cases found'.symm.trans found₂
    cases tag'.symm.trans tag₂
    refine ⟨?_, parts.upholds types fun k v => fits r' k v found'⟩
    have suits' := ((evolves.valid.records found').tagged t tag').2
    rw [types] at suits'
    rcases shape with shape | shape <;> (rw [shape] at suits'; exact suits'.2.2)
  · refine Machine.fits_container (types ▸ shape) known found' tag' ?_
    rw [types]
    exact .refl proper.wellFormed

theorem ends_coerceElem (faithful : Faithful base recur) {d : Deque} {i : Nat} (valid : m.Valid)
    (large : base ≤ m.heap.size) (proper : m.types.Proper u) (found : m.heap.get? ref = some r)
    (elems : r.elems? = some d) (inside : i < d.size) :
    Ends (coerceElem recur ref (some u) i) m (fun _ => PartDone Record.element? base m ref u i)
      fun f m' => f.Raised m' ∧ m.Evolves base none m' := by
  have genuine := ((valid.records found).elems d elems).2 i
  simp only [coerceElem, ends_bind, ends_recordAt found, elems]
  refine (faithful m _ u valid large genuine proper).mono (fun w' m₂ coerced => ?_) fun _ _ fault => fault
  have evolves := coerced.evolves
  obtain ⟨r₂, found₂, record⟩ := evolves.records found
  obtain ⟨d₂, elems₂, size, kept⟩ := record.elems? elems
  -- the element is still there unless it is one that no coercion replaces
  have kept₂ : Kept base m₂.heap (d₂.get i) w' := by
    rcases coerced.stay_cases with stay | ⟨rfl, unique⟩
    · cases found₂.symm.trans (stay ref r found)
      cases elems.symm.trans elems₂
      exact coerced.kept
    · rw [unique _ (kept i)]
      exact .same
  have stored (f : Record → Record) (made : f r₂ = { r₂ with body := .array (d₂.store i w') }) :
      PartDone Record.element? base m ref u i { m₂ with heap := m₂.heap.update ref f } := by
    have step : m₂.Evolves base none _ :=
      .elementStored evolves.valid found₂ elems₂ (size ▸ inside) (coerced.genuine genuine) kept₂ made
    refine ⟨evolves.trans step, fun trusted => ?_⟩
    obtain ⟨settled, fits⟩ := coerced.sound trusted
    refine ⟨settled.trans evolves.valid step (.update found₂ (by rw [made])) (fun _ here => ?_),
      fun r₃ v found₃ present => ?_⟩
    · cases here
    cases (Heap.get?_update_same found₂ _).symm.trans found₃
    obtain ⟨_, _, get⟩ := Deque.store_spec ((evolves.valid.records found₂).elems d₂ elems₂).1 i w'
    rw [made, Record.element?, Record.elems?, Option.bind_some, Option.ite_none_right_eq_some, get,
      if_pos rfl] at present
    cases present.2
    exact fits.evolves step
  rw [ends_updateRecord]
  exact stored _ (by simp [elems₂, Record.setElems, Record.elems?_eq_some.1 elems₂])

theorem ends_coerceArray (faithful : Faithful base recur) {elem : Child} (valid : m.Valid)
    (large : base ≤ m.heap.size) (genuine : m.heap.Genuine w) (proper : m.types.Proper t)
    (shape : m.types.graph.node t = .array elem) :
    Ends (coerceArray recur w t elem) m (Coerced base m w t) fun f m' => f.Raised m' ∧ m.Evolves base none m' := by
  obtain ⟨v, known, _⟩ := id genuine
  obtain ⟨u, rfl, properU⟩ := proper.element (.inl shape)
  simp only [coerceArray, ends_bind, ends_decode known]
  split
  next null =>
    have null : w.decode? = some .null := by
      rw [known]
      cases v <;> simp_all [Value.kind]
    exact .same valid fun _ => Machine.fits_null null (.inl (by rw [shape]; trivial))
  rw [ends_bind]
  refine ends_record? genuine (coerced_mismatch valid genuine) fun ref r found shows => ?_
  dsimp only
  cases elems : r.elems? with
  | none => exact coerced_mismatch valid genuine
  | some d =>
    have kind : r.kind = .array := by rw [Record.kind, Record.elems?_eq_some.1 elems]
    have known' : w.decode? = some (.object ref) := by rw [shows, Record.value, kind]
    cases tag : r.tag with
    | some tag' => exact ends_sameContainer valid genuine proper (.inl shape) known' found tag
    | none =>
      have step : PartStep Record.element? base m.types ref t u (coerceElem recur ref (some u)) := by
        intro i m' r' v valid' types large' found' _ present
        obtain ⟨d', elems', inside⟩ := Record.element?_eq_some present
        exact ends_coerceElem faithful valid' large' (types ▸ properU) found' elems' inside
      have suits : Record.Suits { r with tag := some t } (m.types.graph.node t) := by
        rw [shape]
        exact ⟨kind, (valid.records found).untagged tag⟩
      exact ends_container (.array shape) step valid large proper (.inl shape) known' found tag suits (.inr kind)
        fun i => by simp [Record.element?, show Record.elems? { r with tag := some t } = some d from elems]

theorem ends_coerceEntry (faithful : Faithful base recur) {key : String} (valid : m.Valid)
    (large : base ≤ m.heap.size) (proper : m.types.Proper u) (found : m.heap.get? ref = some r)
    (untabled : ∀ {m' r'}, m.Evolves base none m' → m'.heap.get? ref = some r' → r'.layout = none)
    (present : r.dynGet? key = some w) :
    Ends (coerceEntry recur ref (some u) key) m (fun _ => PartDone Record.dynGet? base m ref u key)
      fun f m' => f.Raised m' ∧ m.Evolves base none m' := by
  have genuine := (valid.records found).entries key w present
  simp only [coerceEntry, ends_bind, ends_recordAt found, present]
  refine (faithful m _ u valid large genuine proper).mono (fun w' m₂ coerced => ?_) fun _ _ fault => fault
  have evolves := coerced.evolves
  obtain ⟨r₂, found₂, record⟩ := evolves.records found
  have store := record.store (untabled evolves found₂) key
  rw [present] at store
  obtain ⟨v₂, present₂, kept⟩ := kept_of_rel store
  have kept₂ : Kept base m₂.heap v₂ w' := by
    rcases coerced.stay_cases with stay | ⟨rfl, unique⟩
    · cases found₂.symm.trans (stay ref r found)
      cases present.symm.trans present₂
      exact coerced.kept
    · rw [unique _ kept]
      exact .same
  rw [ends_updateRecord]
  have step : m₂.Evolves base none { m₂ with heap := m₂.heap.update ref (·.dynPut key w') } :=
    .stored evolves.valid found₂ (coerced.genuine genuine) fun _ => ⟨v₂, present₂, kept₂⟩
  refine ⟨evolves.trans step, fun trusted => ?_⟩
  obtain ⟨settled, fits⟩ := coerced.sound trusted
  refine ⟨settled.trans evolves.valid step (.update found₂ rfl) (fun _ here => ?_), fun r₃ v found₃ present₃ => ?_⟩
  · cases here
  cases (Heap.get?_update_same found₂ _).symm.trans found₃
  rw [Record.dynGet?_dynPut (evolves.valid.records found₂).store, if_pos ⟨rfl, Record.dyn_isSome present₂⟩] at present₃
  cases present₃
  exact fits.evolves step

theorem ends_coerceMap (faithful : Faithful base recur) {elem : Child} (valid : m.Valid)
    (large : base ≤ m.heap.size) (genuine : m.heap.Genuine w) (proper : m.types.Proper t)
    (shape : m.types.graph.node t = .map elem) :
    Ends (coerceMap recur w t elem) m (Coerced base m w t) fun f m' => f.Raised m' ∧ m.Evolves base none m' := by
  obtain ⟨v, known, _⟩ := id genuine
  obtain ⟨u, rfl, properU⟩ := proper.element (.inr shape)
  simp only [coerceMap, ends_bind, ends_decode known]
  cases v with
  | null => exact .same valid fun _ => Machine.fits_null known (.inl (by rw [shape]; trivial))
  | object ref =>
    obtain ⟨r, found, _⟩ := genuine.object known
    simp only [ends_bind, ends_recordAt found]
    cases tag : r.tag with
    | some tag' => exact ends_sameContainer valid genuine proper (.inr shape) known found tag
    | none =>
      dsimp only
      split
      next =>
        rw [ends_bind]
        exact coerced_mismatch valid genuine
      next kind =>
        have kind := not_not.1 kind
        have step : PartStep Record.dynGet? base m.types ref t u (coerceEntry recur ref (some u)) := by
          intro key m' r' v valid' types large' found' tag' present
          refine ends_coerceEntry faithful valid' large' (types ▸ properU) found' (fun evolves found'' => ?_) present
          obtain ⟨_, same, record⟩ := evolves.records found'
          cases found''.symm.trans same
          have suits := ((evolves.valid.records found'').tagged t (record.tag t tag')).2
          rw [evolves.types, types, shape] at suits
          exact suits.2.1
        have suits : Record.Suits { r with tag := some t } (m.types.graph.node t) := by
          rw [shape]
          exact ⟨kind, (valid.records found).untagged tag⟩
        refine ends_container (.map shape) step valid large proper (.inr shape) known found tag suits (.inl kind)
          fun key => ?_
        change key ∈ (r.dyn.map (·.keys)).getD [] ↔ (r.dynGet? key).isSome
        rw [Record.dynGet?]
        cases store : r.dyn with
        | none => simp
        | some d => exact ((valid.records found).store d store).mem_keys
  | _ => exact coerced_mismatch valid genuine

theorem hasPrim_iff {v : Value} {p : Prim} : hasPrim v p = true ↔ v.kind.prim? = some p := by
  cases v <;> cases p <;> simp [hasPrim, Value.kind, ValueKind.prim?]

theorem ends_coerceStep (faithful : Faithful base recur) (valid : m.Valid) (large : base ≤ m.heap.size)
    (genuine : m.heap.Genuine w) (proper : m.types.Proper t) :
    Ends (coerceStep recur w t) m (Coerced base m w t) fun f m' => f.Raised m' ∧ m.Evolves base none m' := by
  unfold coerceStep
  split
  next same =>
    subst same
    exact .same valid fun _ => Machine.fits_undefined
  obtain ⟨v, known, _⟩ := id genuine
  rw [ends_bind, ends_node]
  cases shape : m.types.graph.node t with
  | prim p =>
    have fits (holds : p = .top ∨ ∃ v, w.decode? = some v ∧ v.kind.prim? = some p) : m.Fits w t := by
      refine .inr ?_
      rw [shape]
      exact holds
    cases p with
    | top => exact .same valid fun _ => fits (.inl rfl)
    | _ =>
      simp only [ends_bind, ends_decode known]
      split
      next yes => exact .same valid fun _ => fits (.inr ⟨v, known, hasPrim_iff.1 yes⟩)
      next => exact coerced_mismatch valid genuine
  | closure sig => exact ends_coerceClosure valid large genuine proper shape
  | object props => exact ends_coerceObject faithful valid large genuine proper shape
  | array elem => exact ends_coerceArray faithful valid large genuine proper shape
  | map elem => exact ends_coerceMap faithful valid large genuine proper shape
  | odd => exact coerced_mismatch valid genuine

theorem ends_nested {α : Type} {act : Run α} {ok : α → Machine → Prop} {err : Fault → Machine → Prop} :
    Ends (nested act) m ok err ↔ Ends act { m with depth := m.depth + 1 }
      (fun a m' => ok a { m' with depth := m'.depth - 1 }) fun f m' => err f { m' with depth := m'.depth - 1 } := by
  unfold Ends nested
  cases act { m with depth := m.depth + 1 } <;> rfl

/-- The count of coercions in progress is back where it was. -/
theorem evolves_nested {m' : Machine} (evolves : Machine.Evolves base none { m with depth := m.depth + 1 } m') :
    m.Evolves base none { m' with depth := m'.depth - 1 } := by
  refine evolves.reframe rfl rfl rfl ?_
  rw [evolves.frame]
  rfl

/-- Coercion is faithful on every level of nesting. -/
theorem coerceWithin_faithful (budget : Nat) : Faithful base (coerceWithin budget) := by
  induction budget with
  | zero =>
    intro m w t valid _ _ _
    have evolves : m.Evolves base none m := .refl valid
    exact ⟨trivial, evolves.reframe rfl rfl rfl rfl⟩
  | succ budget faithful =>
    intro m w t valid large genuine proper
    have valid' : Machine.Valid { m with depth := m.depth + 1 } := valid.reframe rfl rfl
    rw [coerceWithin, ends_nested]
    refine (ends_coerceStep faithful valid' large genuine proper).mono (fun w' m' coerced => ?_)
      fun _ _ fault => ⟨fault.1, evolves_nested fault.2⟩
    exact ⟨evolves_nested coerced.evolves, coerced.kept, coerced.stay,
      fun trusted => coerced.settled ⟨trusted.upholds, trusted.truthful⟩, coerced.fits⟩

theorem coerce_faithful (valid : m.Valid) (genuine : m.heap.Genuine w) (proper : m.types.Proper t) :
    Ends (coerce w (some t)) m (Coerced m.heap.size m w t)
      fun f m' => f.Raised m' ∧ m.Evolves m.heap.size none m' :=
  coerceWithin_faithful _ m w t valid (Nat.le_refl _) genuine proper

/-- What comes of coercing a value, in any valid state of the machine. -/
theorem ends_coerce (valid : m.Valid) (genuine : m.heap.Genuine w) (proper : m.types.Proper t) :
    Ends (coerce w (some t)) m (Coerced m.heap.size m w t)
      fun f m' => f.Expected ∧ m.Evolves m.heap.size none m' :=
  (coerce_faithful valid genuine proper).mono (fun _ _ coerced => coerced)
    fun _ _ fault => ⟨fault.1.expected, fault.2⟩

end Run

end Gradual
