import Gradual.Proofs.Coercion.Conformance
import Gradual.Proofs.Coercion.Steps
import Gradual.Proofs.Types.Completeness
import Gradual.Proofs.Types.Decision

/-!
The outcome of coercing one value, as the coercion of the values around it sees it. However it ends the
machine has evolved. If it ends with a value, that value stands for the one given, and if finished
objects upheld their types before, then every record that took a tag on the way upholds it now and the
value fits the type asked for.

While a coercion is under way, records that have a tag already are taken on trust. What pays for that is
`Machine.Settled`: a coercion that returns leaves no promise open but those that were open before.
-/
namespace Gradual

def Fault.Expected : Fault → Prop
  | .violation _ | .misuse .handleSpace => True
  | _ => False

def Fault.Raised (f : Fault) (m : Machine) : Prop :=
  match f with
  | .violation _ => True
  | .misuse .handleSpace => maxRef ≤ m.heap.size
  | _ => False

theorem Fault.Raised.expected {f : Fault} {m : Machine} (raised : f.Raised m) : f.Expected := by
  unfold Fault.Raised at raised
  split at raised
  · trivial
  · trivial
  · exact raised.elim

namespace Machine

variable {base : Nat} {free : Option Ref} {m m' m'' : Machine}

/-- Every record that has taken a tag between the two states upholds it. -/
def Settled (m m' : Machine) : Prop :=
  ∀ (ref : Ref) (r' : Record) (t : TypeId), m'.heap.get? ref = some r' → r'.tag = some t →
    (∃ r, m.heap.get? ref = some r ∧ r.tag.isSome) ∨ (r'.migrating = false ∧ m'.Upholds ref r' t)

/-- Objects that have their layout uphold their types, and the oracle tells the truth. -/
structure Trusted (m : Machine) : Prop where
  upholds : ∀ {ref : Ref} {r : Record} {t : TypeId} {props : List Property}, m.heap.get? ref = some r →
    r.tag = some t → m.types.graph.node t = .object props → r.migrating = false → m.Upholds ref r t
  truthful : m.oracle.Truthful m.types.graph m.limits.variance

/-- Nothing took a tag. -/
theorem Settled.of_tags (tags : ∀ {ref : Ref} {r' : Record}, m'.heap.get? ref = some r' → r'.tag.isSome →
    ∃ r, m.heap.get? ref = some r ∧ r.tag.isSome) : m.Settled m' :=
  fun _ _ _ found tag => .inl (tags found (by rw [tag]; rfl))

theorem Settled.refl : m.Settled m := .of_tags fun found tag => ⟨_, found, tag⟩

theorem Settled.update {ref : Ref} {r : Record} {f : Record → Record} (found : m.heap.get? ref = some r)
    (tag : (f r).tag = r.tag) : m.Settled { m with heap := m.heap.update ref f } := by
  refine .of_tags fun {x rx} present tagged => ?_
  by_cases same : x = ref
  · subst same
    cases (Heap.get?_update_same found f).symm.trans present
    exact ⟨r, found, tag ▸ tagged⟩
  · exact ⟨rx, (Heap.get?_update_ne same f).symm.trans present, tagged⟩

/-- A record with a layout in the making keeps its promise open from the first state on. -/
theorem Settled.trans (first : m.Settled m') (valid : m'.Valid) (evolves : m'.Evolves base free m'')
    (second : m'.Settled m'') (opened : ∀ ref, free = some ref → ∃ r, m.heap.get? ref = some r ∧ r.tag.isSome) :
    m.Settled m'' := by
  intro ref r'' t found'' tag
  rcases second ref r'' t found'' tag with ⟨r', found', tagged⟩ | settled
  · obtain ⟨t', tag'⟩ := Option.isSome_iff_exists.1 tagged
    rcases first ref r' t' found' tag' with before | ⟨done, upholds⟩
    · exact .inl before
    · by_cases here : free = some ref
      · exact .inl (opened ref here)
      · obtain ⟨r₂, found₂, record⟩ := evolves.records found'
        cases found''.symm.trans found₂
        cases (record.tag t' tag').symm.trans tag
        exact .inr ⟨(record.frozen tagged here).2.1.trans done,
          upholds.evolves valid evolves found' found'' tag'⟩
  · exact .inr settled

/-- A record took its tag at the start and upholds it in the end. -/
theorem Settled.tagging {start : Machine} {ref : Ref}
    (others : ∀ x, x ≠ ref → start.heap.get? x = m.heap.get? x) (settled : start.Settled m')
    (here : ∀ r' t, m'.heap.get? ref = some r' → r'.tag = some t → r'.migrating = false ∧ m'.Upholds ref r' t) :
    m.Settled m' := by
  intro x rx t present tag
  by_cases same : x = ref
  · subst same
    exact .inr (here rx t present tag)
  · refine (settled x rx t present tag).imp_left fun ⟨r, found, tagged⟩ => ?_
    exact ⟨r, (others x same).symm.trans found, tagged⟩

theorem Evolves.truthful (evolves : m.Evolves base free m')
    (truthful : m.oracle.Truthful m.types.graph m.limits.variance) :
    m'.oracle.Truthful m'.types.graph m'.limits.variance := by
  have oracle : m'.oracle = m.oracle := by rw [evolves.frame]
  rwa [oracle, evolves.types, evolves.limits]

/-- Nothing is expected yet of a record that takes its tag. -/
theorem Trusted.tagging {ref : Ref} (trusted : m.Trusted) (valid : m.Valid) (evolves : m.Evolves base free m')
    (others : ∀ x, x ≠ ref → m'.heap.get? x = m.heap.get? x)
    (here : ∀ r t props, m'.heap.get? ref = some r → r.tag = some t → m.types.graph.node t = .object props →
      r.migrating = true) : m'.Trusted where
  upholds {x rx t props} present tag shape done := by
    rw [evolves.types] at shape
    by_cases same : x = ref
    · subst same
      rw [here rx t props present tag shape] at done
      cases done
    · have before := (others x same).symm.trans present
      exact (trusted.upholds before tag shape done).evolves valid evolves before present tag
  truthful := evolves.truthful trusted.truthful

theorem Trusted.evolves (trusted : m.Trusted) (valid : m.Valid) (evolves : m.Evolves base free m')
    (settled : m.Settled m')
    (opened : ∀ ref r', free = some ref → m'.heap.get? ref = some r' → r'.migrating = true) : m'.Trusted where
  upholds {ref r' t props} found' tag shape done := by
    rcases settled ref r' t found' tag with ⟨r, found, tagged⟩ | ⟨_, upholds⟩
    · by_cases here : free = some ref
      · rw [opened ref r' here found'] at done
        cases done
      · obtain ⟨r₂, found₂, record⟩ := evolves.records found
        cases found'.symm.trans found₂
        obtain ⟨t', tag'⟩ := Option.isSome_iff_exists.1 tagged
        cases (record.tag t' tag').symm.trans tag
        refine (trusted.upholds found tag' (evolves.types ▸ shape) ?_).evolves valid evolves found found' tag'
        rw [← (record.frozen tagged here).2.1, done]
    · exact upholds
  truthful := evolves.truthful trusted.truthful

end Machine

structure Coerced (base : Nat) (m : Machine) (w : Word) (t : TypeId) (w' : Word) (m' : Machine) : Prop where
  evolves : m.Evolves base none m'
  kept : Kept base m'.heap w w'
  /-- Untyped closures are coerced without a look at the heap. -/
  stay : (∀ ref r, m.heap.get? ref = some r → m'.heap.get? ref = some r) ∨ ∀ v, Kept base m'.heap w v → v = w
  settled : m.Trusted → m.Settled m'
  /-- What shows on the value needs no trust in other records. -/
  fits : m.oracle.Truthful m.types.graph m.limits.variance → m'.Fits w' t

theorem Kept.genuine {base : Nat} {h : Heap} {v w : Word} (kept : Kept base h v w) (genuine : h.Genuine v) :
    h.Genuine w := by
  cases kept with
  | same => exact genuine
  | wrapped _ _ _ _ typed _ found' wraps =>
    obtain ⟨n, t, body, _⟩ := wraps
    refine ⟨_, typed, fun ref is_ref => ?_⟩
    cases is_ref
    exact ⟨_, found', by simp [Record.value, Record.kind, body]⟩

namespace Coerced

variable {base : Nat} {m m' : Machine} {w w' : Word} {t : TypeId}

/-- A value that has the type already. -/
theorem same (valid : m.Valid) (fits : m.oracle.Truthful m.types.graph m.limits.variance → m.Fits w t) :
    Coerced base m w t w m where
  evolves := .refl valid
  kept := .same
  stay := .inl fun _ _ found => found
  settled _ := .refl
  fits := fits

theorem sound (coerced : Coerced base m w t w' m') (trusted : m.Trusted) : m.Settled m' ∧ m'.Fits w' t :=
  ⟨coerced.settled trusted, coerced.fits trusted.truthful⟩

theorem genuine (coerced : Coerced base m w t w' m') (genuine : m.heap.Genuine w) : m'.heap.Genuine w' :=
  coerced.kept.genuine (genuine.transfer coerced.evolves.kinds)

/-- Either no record has changed or the value is its own result, wherever it stands. -/
theorem stay_cases (coerced : Coerced base m w t w' m') :
    (∀ ref r, m.heap.get? ref = some r → m'.heap.get? ref = some r) ∨
      (w' = w ∧ ∀ v, Kept base m'.heap w v → v = w) :=
  coerced.stay.imp_right fun unique => ⟨unique w' coerced.kept, unique⟩

/-- Where the value was read as a property it is still found, and either its record is as it was or the
value is its own result. -/
theorem own (coerced : Coerced base m w t w' m') (valid : m.Valid) {ref : Ref} {r : Record} {id : PropId}
    (found : m.heap.get? ref = some r) (named : m.types.names.name id ≠ "") (own : m.own? r id = some w) :
    ∃ r', m'.heap.get? ref = some r' ∧ m'.own? r' id = some w ∧ (r' = r ∨ w' = w) := by
  rcases coerced.stay_cases with stay | ⟨rfl, unique⟩
  · have own' : m'.own? r id = m.own? r id :=
      valid.own?_eq coerced.evolves.valid coerced.evolves.types found (stay ref r found)
        (fun q rq at_q _ _ => ⟨rq, stay q rq at_q, rfl⟩) rfl (fun _ _ => rfl) fun _ => rfl
    exact ⟨r, stay ref r found, own'.trans own, .inl rfl⟩
  · obtain ⟨r', found', record⟩ := coerced.evolves.records found
    obtain ⟨v, own', kept⟩ := record.own named own
    cases unique v kept
    exact ⟨r', found', own', .inr rfl⟩

end Coerced

namespace Run

variable {m : Machine} {base : Nat}

/-- A way to coerce parts that does what a coercion should, with as many old records as `base` says. -/
def Faithful (base : Nat) (recur : Recur) : Prop :=
  ∀ m w t, m.Valid → base ≤ m.heap.size → m.heap.Genuine w → m.types.Proper t →
    Ends (recur w (some t)) m (Coerced base m w t) fun f m' => f.Raised m' ∧ m.Evolves base none m'

/-- The checker answers or is out of hypotheses, which is a violation. -/
theorem ends_verdict {ok : Bool → Machine → Prop} {err : Fault → Machine → Prop} {rel : Relation} {a b : TypeId}
    (left : m.types.graph.WellFormed a) (right : m.types.graph.WellFormed b)
    (answer : ∀ yes, (m.checker.decide m.types.graph rel (some a) (some b)).result = .ok yes → ok yes m)
    (fault : err (.violation (.hypotheses rel (m.format (some a)) (m.format (some b)))) { m with dirty := true }) :
    Ends (verdict rel (some a) (some b)) m ok err := by
  have whole := Checker.decide_whole (c := m.checker) rel left right
  simp only [verdict, ends_bind, ends_get]
  cases result : (m.checker.decide m.types.graph rel (some a) (some b)).result with
  | ok yes => exact answer yes result
  | error e =>
    cases e with
    | overflow => exact fault
    | missing side => exact absurd result (whole side)

end Run

namespace Machine

variable {m : Machine} {a b : TypeId}

theorem subtype_of_decide (truthful : m.oracle.Truthful m.types.graph m.limits.variance)
    (left : m.types.graph.WellFormed a) (right : m.types.graph.WellFormed b)
    (yes : (m.checker.decide m.types.graph .subtype (some a) (some b)).result = .ok true) :
    m.types.graph.Subtype m.limits.variance a b :=
  (Checker.subtype_iff (c := m.checker) truthful left right yes).1 rfl

theorem equal_of_decide (truthful : m.oracle.Truthful m.types.graph m.limits.variance)
    (left : m.types.graph.WellFormed a) (right : m.types.graph.WellFormed b)
    (yes : (m.checker.decide m.types.graph .equal (some a) (some b)).result = .ok true) : m.types.graph.Equal a b :=
  (Checker.equal_iff (c := m.checker) truthful left right yes).1 rfl

end Machine

end Gradual
