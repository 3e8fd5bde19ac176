import Gradual.Proofs.Coercion.Evolution
import Gradual.Proofs.Heap.Record

/-!
Conformance of values to types in a heap. It is the largest relation that obeys one rule for each kind
of type, so a value whose parts lead back to itself conforms unless finitely many steps lead to a part
that does not.

The rules look through records, but most of them is settled by the tags on the way: `Machine.Fits` is the
part of conformance that shows on a value and the tag of its record. If every tagged record upholds its
tag as far as `Fits` can tell, then fitting a type is the same as conforming to it. Tags never change
during a coercion, which makes `Fits` easy to keep.
-/
namespace Gradual

def ValueKind.prim? : ValueKind → Option Prim
  | int => some .int
  | double => some .float
  | bool => some .bool
  | string => some .string
  | _ => none

def Node.Structured : Node → Prop
  | .object _ | .array _ | .map _ => True
  | _ => False

namespace Machine

def Tagged (m : Machine) (ref : Ref) (suits : TypeId → Prop) : Prop :=
  ∃ r t, m.heap.get? ref = some r ∧ r.tag = some t ∧ suits t

def ConformsBy (m : Machine) (R : Word → TypeId → Prop) (w : Word) (t : TypeId) : Prop :=
  w.decode? = some .undefined ∨
  match m.types.graph.node t with
  | .prim p => p = .top ∨ ∃ v, w.decode? = some v ∧ v.kind.prim? = some p
  | .closure _ => w.decode? = some .null ∨ ∃ ref, w.decode? = some (.closure ref) ∧
      m.Tagged ref fun tag => m.types.graph.Subtype m.limits.variance tag t
  | .object _ => w.decode? = some .null ∨ ∃ ref, w.decode? = some (.object ref) ∧
      m.Tagged ref fun tag => m.types.graph.Subtype m.limits.variance tag t ∧
        ∀ p ∈ (m.types.graph.node tag).props, ∃ v, m.lookup? ref p.id = some v ∧ ∃ u ∈ p.type, R v u
  | .array elem => w.decode? = some .null ∨ ∃ ref r d tag, w.decode? = some (.object ref) ∧
      m.heap.get? ref = some r ∧ r.elems? = some d ∧ r.tag = some tag ∧ m.types.graph.Equal tag t ∧
        ∀ i < d.size, ∃ u ∈ elem, R (d.get i) u
  | .map elem => w.decode? = some .null ∨ ∃ ref r tag, w.decode? = some (.object ref) ∧
      m.heap.get? ref = some r ∧ r.tag = some tag ∧ m.types.graph.Equal tag t ∧
        ∀ name v, r.dynGet? name = some v → ∃ u ∈ elem, R v u
  | .odd _ => False

theorem ConformsBy.mono {m : Machine} {R S : Word → TypeId → Prop} (le : ∀ w t, R w t → S w t) {w : Word} {t : TypeId}
    (h : m.ConformsBy R w t) : m.ConformsBy S w t := by
  unfold ConformsBy at h ⊢
  refine h.imp_right fun h => ?_
  split at h
  · exact h
  · exact h
  · refine h.imp_right ?_
    rintro ⟨ref, known, r, tag, found, tagged, sub, props⟩
    refine ⟨ref, known, r, tag, found, tagged, sub, fun p member => ?_⟩
    obtain ⟨v, present, u, type, holds⟩ := props p member
    exact ⟨v, present, u, type, le v u holds⟩
  · refine h.imp_right ?_
    rintro ⟨ref, r, d, tag, known, found, elems, tagged, equal, parts⟩
    refine ⟨ref, r, d, tag, known, found, elems, tagged, equal, fun i inside => ?_⟩
    obtain ⟨u, type, holds⟩ := parts i inside
    exact ⟨u, type, le _ u holds⟩
  · refine h.imp_right ?_
    rintro ⟨ref, r, tag, known, found, tagged, equal, parts⟩
    refine ⟨ref, r, tag, known, found, tagged, equal, fun name v present => ?_⟩
    obtain ⟨u, type, holds⟩ := parts name v present
    exact ⟨u, type, le v u holds⟩
  · exact h

def conformsRules (m : Machine) : (Word → TypeId → Prop) →o (Word → TypeId → Prop) where
  toFun R w t := m.ConformsBy R w t
  monotone' _ _ le _ _ := ConformsBy.mono le

/-- The largest relation that obeys the rules of conformance. -/
def Conforms (m : Machine) : Word → TypeId → Prop := m.conformsRules.gfp

theorem Conforms.parts {m : Machine} {w : Word} {t : TypeId} (h : m.Conforms w t) : m.ConformsBy m.Conforms w t :=
  (m.conformsRules.map_gfp.symm ▸ h : m.conformsRules m.conformsRules.gfp w t)

theorem Conforms.coinduct {m : Machine} (R : Word → TypeId → Prop) (obeys : ∀ w t, R w t → m.ConformsBy R w t)
    {w : Word} {t : TypeId} (h : R w t) : m.Conforms w t :=
  m.conformsRules.le_gfp (a := R) obeys w t h

/-- No migration is under way or has failed, and every object and container has the type on its tag. -/
structure WellTyped (m : Machine) : Prop where
  done : ∀ {ref : Ref} {r : Record}, m.heap.get? ref = some r → r.migrating = false
  conforms : ∀ {ref : Ref} {r : Record} {t : TypeId}, m.heap.get? ref = some r → r.tag = some t →
    (m.types.graph.node t).Structured → m.Conforms (r.word ref) t

/-- The part of conformance that shows on a value and on the tag of its record. -/
def Fits (m : Machine) (w : Word) (t : TypeId) : Prop :=
  w.decode? = some .undefined ∨
  match m.types.graph.node t with
  | .prim p => p = .top ∨ ∃ v, w.decode? = some v ∧ v.kind.prim? = some p
  | .closure _ => w.decode? = some .null ∨ ∃ ref, w.decode? = some (.closure ref) ∧
      m.Tagged ref fun tag => m.types.graph.Subtype m.limits.variance tag t
  | .object _ => w.decode? = some .null ∨ ∃ ref, w.decode? = some (.object ref) ∧
      m.Tagged ref fun tag => m.types.graph.Subtype m.limits.variance tag t
  | .array _ | .map _ => w.decode? = some .null ∨ ∃ ref, w.decode? = some (.object ref) ∧
      m.Tagged ref fun tag => m.types.graph.Equal tag t
  | .odd _ => False

/-- What the tag of a record promises of its parts, as far as tags tell. -/
def Upholds (m : Machine) (ref : Ref) (r : Record) (t : TypeId) : Prop :=
  match m.types.graph.node t with
  | .object props => ∀ p ∈ props, ∃ v, m.lookup? ref p.id = some v ∧ ∃ u ∈ p.type, m.Fits v u
  | .array elem => ∀ d, r.elems? = some d → ∀ i < d.size, ∃ u ∈ elem, m.Fits (d.get i) u
  | .map elem => ∀ name v, r.dynGet? name = some v → ∃ u ∈ elem, m.Fits v u
  | _ => True

structure Upright (m : Machine) : Prop where
  done : ∀ {ref : Ref} {r : Record}, m.heap.get? ref = some r → r.migrating = false
  upholds : ∀ {ref : Ref} {r : Record} {t : TypeId}, m.heap.get? ref = some r → r.tag = some t → m.Upholds ref r t

variable {base : Nat} {free : Option Ref} {m m' : Machine} {v w : Word} {t u : TypeId}

theorem Tagged.evolves {ref : Ref} {suits : TypeId → Prop} (tagged : m.Tagged ref suits)
    (evolves : m.Evolves base free m') : m'.Tagged ref suits := by
  obtain ⟨r, t, found, tag, suits⟩ := tagged
  obtain ⟨r', found', record⟩ := evolves.records found
  exact ⟨r', t, found', record.tag t tag, suits⟩

/-- What a value fits depends on tags alone. -/
theorem Fits.retag (fits : m.Fits w t) (types : m'.types = m.types) (limits : m'.limits = m.limits)
    (tags : ∀ (ref : Ref) (suits : TypeId → Prop), m.Tagged ref suits → m'.Tagged ref suits) : m'.Fits w t := by
  unfold Fits at fits ⊢
  rw [types, limits]
  refine fits.imp_right fun fits => ?_
  split at fits
  · exact fits
  · exact fits.imp_right fun ⟨ref, known, tagged⟩ => ⟨ref, known, tags ref _ tagged⟩
  · exact fits.imp_right fun ⟨ref, known, tagged⟩ => ⟨ref, known, tags ref _ tagged⟩
  · exact fits.imp_right fun ⟨ref, known, tagged⟩ => ⟨ref, known, tags ref _ tagged⟩
  · exact fits.imp_right fun ⟨ref, known, tagged⟩ => ⟨ref, known, tags ref _ tagged⟩
  · exact fits

/-- Tags stay, so what fits a type goes on to fit it. -/
theorem Fits.evolves (fits : m.Fits w t) (evolves : m.Evolves base free m') : m'.Fits w t :=
  fits.retag evolves.types evolves.limits fun _ _ tagged => tagged.evolves evolves

/-- An untyped closure fits nothing but the top type, and so its wrapper fits too. -/
theorem Fits.kept (fits : m.Fits v t) (kept : Kept base m.heap v w) : m.Fits w t := by
  cases kept with
  | same => exact fits
  | @wrapped _ old new r r' untyped found _ untagged =>
    have not_tagged (suits : TypeId → Prop) : ¬m.Tagged old suits := by
      rintro ⟨r', t, found', tag, _⟩
      cases found.symm.trans found'
      rw [untagged] at tag
      cases tag
    unfold Fits at fits ⊢
    rw [untyped] at fits
    refine .inr ?_
    split at fits
    · rcases fits with impossible | top | ⟨x, known, prim⟩
      · cases impossible
      · exact .inl top
      · cases known
        cases prim
    · rcases fits with impossible | impossible | ⟨ref, known, tagged⟩
      · cases impossible
      · cases impossible
      · cases known
        exact absurd tagged (not_tagged _)
    all_goals simp at fits

/-- Equal types have the same values. -/
theorem Fits.equal (valid : m.Valid) (fits : m.Fits w t) (equal : m.types.graph.Equal t u) : m.Fits w u := by
  have subtype {ref : Ref}
      (tagged : m.Tagged ref fun tag => m.types.graph.Subtype m.limits.variance tag t) :
      m.Tagged ref fun tag => m.types.graph.Subtype m.limits.variance tag u := by
    obtain ⟨r, tag, found, known, sub⟩ := tagged
    have formed := ((valid.records found).tagged tag known).1.wellFormed
    exact ⟨r, tag, found, known, Graph.Subtype.congr (.refl formed) sub equal⟩
  have same {ref : Ref} (tagged : m.Tagged ref fun tag => m.types.graph.Equal tag t) :
      m.Tagged ref fun tag => m.types.graph.Equal tag u := by
    obtain ⟨r, tag, found, known, sub⟩ := tagged
    exact ⟨r, tag, found, known, sub.trans equal⟩
  have parts := equal.parts
  unfold Fits at fits ⊢
  refine fits.imp_right fun fits => ?_
  generalize m.types.graph.node t = n at fits parts
  generalize m.types.graph.node u = n' at parts
  cases n <;> cases n' <;> simp only [Node.EqualBy] at parts <;> simp only at fits ⊢
  · exact parts ▸ fits
  · exact fits.imp_right (Exists.imp fun _ => And.imp_right subtype)
  · exact fits.imp_right (Exists.imp fun _ => And.imp_right subtype)
  · exact fits.imp_right (Exists.imp fun _ => And.imp_right same)
  · exact fits.imp_right (Exists.imp fun _ => And.imp_right same)

/-- A property that fits a type is found again and fits. -/
theorem Fits.lookup? (valid : m.Valid) (evolves : m.Evolves base free m') {id : PropId} {ref : Ref} {r : Record}
    (named : m.types.names.name id ≠ "") (found : m.heap.get? ref = some r) (present : m.lookup? ref id = some v)
    (fits : m.Fits v t) : ∃ v', m'.lookup? ref id = some v' ∧ m'.Fits v' t := by
  have kept := evolves.lookup? valid named found
  rw [present] at kept
  obtain ⟨v', present', kept⟩ := kept_of_rel kept
  exact ⟨v', present', (fits.evolves evolves).kept kept⟩

/-- Parts keep their values up to wrapping, so a record goes on to uphold its tag. -/
theorem Upholds.evolves {ref : Ref} {r r' : Record} (upholds : m.Upholds ref r t) (valid : m.Valid)
    (evolves : m.Evolves base free m') (found : m.heap.get? ref = some r) (found' : m'.heap.get? ref = some r')
    (tag : r.tag = some t) : m'.Upholds ref r' t := by
  obtain ⟨r'', found'', record⟩ := evolves.records found
  cases found'.symm.trans found''
  have proper := ((valid.records found).tagged t tag).1
  have suits := ((evolves.valid.records found').tagged t (record.tag t tag)).2
  rw [evolves.types] at suits
  have part {v v' : Word} {c : Child} (fits : ∃ u ∈ c, m.Fits v u) (kept : Kept base m'.heap v v') :
      ∃ u ∈ c, m'.Fits v' u := by
    obtain ⟨u, type, fits⟩ := fits
    exact ⟨u, type, (fits.evolves evolves).kept kept⟩
  unfold Upholds at upholds ⊢
  rw [evolves.types]
  cases shape : m.types.graph.node t with
  | object props =>
    rw [shape] at upholds
    simp only at upholds ⊢
    intro p member
    obtain ⟨v, present, u, type, fits⟩ := upholds p member
    have named := proper.named p (by rw [shape]; exact member)
    obtain ⟨v', present', fits'⟩ := fits.lookup? valid evolves named found present
    exact ⟨v', present', u, type, fits'⟩
  | array elem =>
    rw [shape] at upholds
    simp only at upholds ⊢
    intro d' elems' i inside
    rw [Record.elems?_eq_some] at elems'
    have body := record.body
    rw [elems'] at body
    cases before : r.body with
    | array d =>
      rw [before] at body
      cases body with
      | same => exact part (upholds _ (Record.elems?_eq_some.2 before) i inside) .same
      | array size kept =>
        exact part (upholds d (Record.elems?_eq_some.2 before) i (size ▸ inside)) (kept i)
    | _ => rw [before] at body; cases body
  | map elem =>
    rw [shape] at upholds suits
    simp only at upholds ⊢
    intro name v' present'
    have kept := record.store suits.2.1 name
    rw [present'] at kept
    obtain ⟨v, present, kept⟩ := kept_of_rel' kept
    exact part (upholds name v present) kept
  | _ => trivial

theorem ConformsBy.fits {R : Word → TypeId → Prop} (h : m.ConformsBy R w t) : m.Fits w t := by
  unfold ConformsBy at h
  unfold Fits
  refine h.imp_right fun h => ?_
  split at h
  · exact h
  · exact h
  · exact h.imp_right fun ⟨ref, known, r, tag, found, tagged, sub, _⟩ => ⟨ref, known, r, tag, found, tagged, sub⟩
  · exact h.imp_right fun ⟨ref, r, _, tag, known, found, _, tagged, equal, _⟩ =>
      ⟨ref, known, r, tag, found, tagged, equal⟩
  · exact h.imp_right fun ⟨ref, r, tag, known, found, tagged, equal, _⟩ => ⟨ref, known, r, tag, found, tagged, equal⟩
  · exact h

/-- The properties of the type are there. -/
theorem Upholds.property {ref : Ref} {r : Record} (upholds : m.Upholds ref r t) {p : Property}
    (member : p ∈ (m.types.graph.node t).props) :
    ∃ v, m.lookup? ref p.id = some v ∧ ∃ u ∈ p.type, m.Fits v u := by
  obtain ⟨props, shape⟩ := Node.object_of_mem_props member
  unfold Upholds at upholds
  rw [shape] at upholds member
  exact upholds p member

/-- The element type of a container whose type is equal to another one. -/
theorem fits_element (valid : m.Valid) {e e' : Child} (equal : Option.Rel m.types.graph.Equal e e')
    (fits : ∃ u ∈ e, m.Fits w u) : ∃ u ∈ e', m.Fits w u := by
  obtain ⟨u, rfl, fits⟩ := fits
  cases equal with
  | some equal => exact ⟨_, rfl, fits.equal valid equal⟩

/-- Where every record upholds its tag, a value conforms to the types it fits. -/
theorem Upright.conforms (upright : m.Upright) (valid : m.Valid) (fits : m.Fits w t) : m.Conforms w t := by
  refine Conforms.coinduct m.Fits (fun w t fits => ?_) fits
  unfold Fits at fits
  unfold ConformsBy
  refine fits.imp_right fun fits => ?_
  cases shape : m.types.graph.node t with
  | odd | prim | closure =>
    rw [shape] at fits
    exact fits
  | object props =>
    rw [shape] at fits
    refine fits.imp_right ?_
    rintro ⟨ref, known, r, tag, found, tagged, sub⟩
    refine ⟨ref, known, r, tag, found, tagged, sub, fun p member => ?_⟩
    exact (upright.upholds found tagged).property member
  | array elem =>
    rw [shape] at fits
    refine fits.imp_right ?_
    rintro ⟨ref, known, r, tag, found, tagged, equal⟩
    have parts := upright.upholds found tagged
    have suits := ((valid.records found).tagged tag tagged).2
    have related := equal.parts
    unfold Upholds at parts
    rw [shape] at related
    cases shape' : m.types.graph.node tag with
    | array elem' =>
      rw [shape'] at parts suits related
      obtain ⟨d, elems⟩ := Record.elems?_of_kind suits.1
      exact ⟨ref, r, d, tag, known, found, elems, tagged, equal, fun i inside =>
        fits_element valid related (parts d elems i inside)⟩
    | _ =>
      rw [shape'] at related
      exact related.elim
  | map elem =>
    rw [shape] at fits
    refine fits.imp_right ?_
    rintro ⟨ref, known, r, tag, found, tagged, equal⟩
    have parts := upright.upholds found tagged
    have related := equal.parts
    unfold Upholds at parts
    rw [shape] at related
    cases shape' : m.types.graph.node tag with
    | map elem' =>
      rw [shape'] at parts related
      exact ⟨ref, r, tag, known, found, tagged, equal, fun name v present =>
        fits_element valid related (parts name v present)⟩
    | _ =>
      rw [shape'] at related
      exact related.elim

/-- The word of a record shows what the record is. -/
theorem Valid.word_decode? (valid : m.Valid) {ref : Ref} {r : Record} (found : m.heap.get? ref = some r) :
    (r.word ref).decode? = some (r.value ref) := by
  obtain ⟨issued, inside⟩ := Heap.get?_bounds found
  exact r.word_decode? (Nat.pos_iff_ne_zero.1 issued) (inside.trans valid.room)

/-- The record of a structured type is an object to the eye. -/
theorem Valid.structured_word (valid : m.Valid) {ref : Ref} {r : Record} (found : m.heap.get? ref = some r)
    (tag : r.tag = some t) (structured : (m.types.graph.node t).Structured) :
    (r.word ref).decode? = some (.object ref) := by
  have suits := ((valid.records found).tagged t tag).2
  rw [valid.word_decode? found]
  generalize m.types.graph.node t = n at suits structured
  cases n with
  | object | map | array => simp [Record.value, suits.1]
  | _ => exact structured.elim

theorem Upright.wellTyped (upright : m.Upright) (valid : m.Valid) : m.WellTyped where
  done := upright.done
  conforms {ref r t} found tag structured := by
    refine upright.conforms valid (.inr ?_)
    have known := valid.structured_word found tag structured
    have formed := ((valid.records found).tagged t tag).1.wellFormed
    cases shape : m.types.graph.node t with
    | object => exact .inr ⟨ref, known, r, t, found, tag, .refl formed⟩
    | array | map => exact .inr ⟨ref, known, r, t, found, tag, .refl formed⟩
    | _ =>
      rw [shape] at structured
      exact structured.elim

theorem WellTyped.upright (typed : m.WellTyped) (valid : m.Valid) : m.Upright where
  done := typed.done
  upholds {ref r t} found tag := by
    have part {w : Word} {c : Child} (conforms : ∃ u ∈ c, m.Conforms w u) : ∃ u ∈ c, m.Fits w u := by
      obtain ⟨u, type, conforms⟩ := conforms
      exact ⟨u, type, conforms.parts.fits⟩
    by_cases structured : (m.types.graph.node t).Structured
    · have known := valid.structured_word found tag structured
      have parts := (typed.conforms found tag structured).parts
      unfold ConformsBy at parts
      rw [known] at parts
      unfold Upholds
      cases shape : m.types.graph.node t with
      | object props =>
        rw [shape] at parts
        intro p member
        rcases parts with impossible | impossible | ⟨ref', same, r', t', found', tag', _, props⟩
        · cases impossible
        · cases impossible
        · cases same
          cases found.symm.trans found'
          cases tag.symm.trans tag'
          obtain ⟨v, present, conforms⟩ := props p (by rw [shape]; exact member)
          exact ⟨v, present, part conforms⟩
      | array elem =>
        rw [shape] at parts
        intro d elems i inside
        rcases parts with impossible | impossible | ⟨ref', r', d', t', same, found', elems', _, _, parts⟩
        · cases impossible
        · cases impossible
        · cases same
          cases found.symm.trans found'
          cases elems.symm.trans elems'
          exact part (parts i inside)
      | map elem =>
        rw [shape] at parts
        intro name v present
        rcases parts with impossible | impossible | ⟨ref', r', t', same, found', _, _, parts⟩
        · cases impossible
        · cases impossible
        · cases same
          cases found.symm.trans found'
          exact part (parts name v present)
      | _ => trivial
    · unfold Upholds
      cases shape : m.types.graph.node t with
      | object | array | map => exact absurd (shape ▸ trivial) structured
      | _ => trivial

end Machine

end Gradual
