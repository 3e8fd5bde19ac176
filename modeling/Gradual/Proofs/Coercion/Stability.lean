import Gradual.Proofs.Machine.Reachable
import Gradual.Proofs.Types.Locality
import Gradual.Proofs.Types.Order

/-!
A value coerced once stays coerced. What a value fits shows on tags, and tags are never taken back, so a value
goes on to fit its type whatever the host does (`Fits.persists`); it fits every larger type as well
(`Fits.subsume`), but for ints, which are below floats and are never converted. To coerce a value to a type that
it fits is to look at it and to ask the checker (`ends_coerceStep_fits`). Main statement: `coerce_stable`.
-/
namespace Gradual

/-- Proper types keep all they lead to, so they go on to be related as they are. -/
theorem TypeStore.Extends.agree {s s' : TypeStore} (grown : s.Extends s') : s.graph.Agree s'.graph s.Proper where
  nodes := grown.nodes
  parts _ proper _ edge := proper.child edge

namespace Machine

variable {m m' : Machine} {w : Word} {s t : TypeId} {ref : Ref}

theorem Tagged.persists {suits suits' : TypeId → Prop} (tagged : m.Tagged ref suits) (valid : m.Valid)
    (persists : m.Persists m') (carried : ∀ tag, m.types.Proper tag → suits tag → suits' tag) :
    m'.Tagged ref suits' := by
  obtain ⟨r, tag, found, known, suits⟩ := tagged
  obtain ⟨r', found', keeps⟩ := persists.records found
  exact ⟨r', tag, found', keeps.tag tag known, carried tag ((valid.records found).tagged tag known).1 suits⟩

theorem Fits.persists (fits : m.Fits w t) (valid : m.Valid) (proper : m.types.Proper t) (persists : m.Persists m') :
    m'.Fits w t := by
  have agree := persists.types.agree
  have subtype {ref : Ref} (tagged : m.Tagged ref fun tag => m.types.graph.Subtype m.limits.variance tag t) :
      m'.Tagged ref fun tag => m'.types.graph.Subtype m.limits.variance tag t :=
    tagged.persists valid persists fun _ known sub => agree.subtype known proper sub
  have equal {ref : Ref} (tagged : m.Tagged ref fun tag => m.types.graph.Equal tag t) :
      m'.Tagged ref fun tag => m'.types.graph.Equal tag t :=
    tagged.persists valid persists fun _ known equal => agree.equal known proper equal
  unfold Fits at fits ⊢
  rw [persists.types.nodes t proper, persists.limits]
  refine fits.imp_right fun fits => ?_
  split at fits
  · exact fits
  · exact fits.imp_right fun ⟨ref, known, tagged⟩ => ⟨ref, known, subtype tagged⟩
  · exact fits.imp_right fun ⟨ref, known, tagged⟩ => ⟨ref, known, subtype tagged⟩
  · exact fits.imp_right fun ⟨ref, known, tagged⟩ => ⟨ref, known, equal tagged⟩
  · exact fits.imp_right fun ⟨ref, known, tagged⟩ => ⟨ref, known, equal tagged⟩
  · exact fits

/-- An int type and a float type: the one pair of types where the smaller one has other values. -/
def Widens (m : Machine) (s t : TypeId) : Prop :=
  m.types.graph.node s = .prim .int ∧ m.types.graph.node t = .prim .float

theorem Fits.subsume (fits : m.Fits w s) (sub : m.types.graph.Subtype m.limits.variance s t)
    (apart : ¬m.Widens s t) : m.Fits w t := by
  have subtype {ref : Ref} (tagged : m.Tagged ref fun tag => m.types.graph.Subtype m.limits.variance tag s) :
      m.Tagged ref fun tag => m.types.graph.Subtype m.limits.variance tag t := by
    obtain ⟨r, tag, found, known, below⟩ := tagged
    exact ⟨r, tag, found, known, below.trans sub⟩
  have equal {ref : Ref} (same : m.types.graph.Equal s t)
      (tagged : m.Tagged ref fun tag => m.types.graph.Equal tag s) :
      m.Tagged ref fun tag => m.types.graph.Equal tag t := by
    obtain ⟨r, tag, found, known, before⟩ := tagged
    exact ⟨r, tag, found, known, before.trans same⟩
  have invariant (elem : Child) (shape : m.types.graph.node s = .array elem ∨ m.types.graph.node s = .map elem) :
      m.types.graph.Equal s t := sub.equal_of_container shape
  have parts := sub.parts
  unfold Widens at apart
  unfold Fits at fits ⊢
  refine fits.imp_right fun fits => ?_
  generalize m.types.graph.node s = n at fits parts apart invariant
  generalize m.types.graph.node t = n' at parts apart
  cases n <;> cases n' <;> simp only [Node.SubtypeBy] at parts <;> simp only at fits ⊢
  · rcases parts with rfl | ⟨rfl, rfl⟩
    · exact fits
    · exact absurd ⟨rfl, rfl⟩ apart
  · exact fits.imp_right (Exists.imp fun _ => And.imp_right subtype)
  · exact fits.imp_right (Exists.imp fun _ => And.imp_right subtype)
  · exact fits.imp_right (Exists.imp fun _ => And.imp_right (equal (invariant _ (.inl rfl))))
  · exact fits.imp_right (Exists.imp fun _ => And.imp_right (equal (invariant _ (.inr rfl))))

/-- Only arrays have array types. -/
theorem Valid.elems?_of_equal {r : Record} {tag : TypeId} {elem : Child} (valid : m.Valid)
    (found : m.heap.get? ref = some r) (tagged : r.tag = some tag) (shape : m.types.graph.node t = .array elem)
    (equal : m.types.graph.Equal tag t) : ∃ d, r.elems? = some d := by
  have suits := ((valid.records found).tagged tag tagged).2
  have parts := equal.parts
  rw [shape] at parts
  generalize m.types.graph.node tag = n at suits parts
  cases n with
  | array => exact Record.elems?_of_kind suits.1
  | _ => exact parts.elim

end Machine

namespace Run

variable {m : Machine} {w : Word} {t tag : TypeId} {ref : Ref} {r : Record}

theorem ends_record?_object {ok : Option (Ref × Record) → Machine → Prop} {err : Fault → Machine → Prop}
    (known : w.decode? = some (.object ref)) (found : m.heap.get? ref = some r) :
    Ends (record? w) m ok err ↔ ok (some (ref, r)) m := by
  simp only [record?, ends_bind, ends_decode known, Value.ref?, ends_recordAt found, ends_pure]

def Overflows (m : Machine) (f : Fault) (m' : Machine) : Prop :=
  (∃ rel a b, f = .violation (.hypotheses rel a b)) ∧ m' = { m with dirty := true }

/-- A tag that is related to the type is suitable, if the checker gets to the end. -/
theorem ends_related (rel : Relation) (truthful : m.oracle.Truthful m.types.graph m.limits.variance)
    (left : m.types.graph.WellFormed tag) (right : m.types.graph.WellFormed t)
    (related : m.types.graph.Related m.limits.variance rel tag t) :
    Ends (do if tag = t then return w
             if ← verdict rel (some tag) (some t) then return w
             mismatch w (some t)) m
      (fun w' m' => w' = w ∧ m' = m) (Overflows m) := by
  split
  next => exact ⟨rfl, rfl⟩
  next =>
    rw [ends_bind]
    refine ends_verdict left right (fun yes result => ?_) ⟨⟨_, _, _, rfl⟩, rfl⟩
    rw [(Checker.decide_iff (c := m.checker) truthful left right result).2 related]
    exact ⟨rfl, rfl⟩

/-- The value of a reference type is null or has a record whose tag is related to the type. -/
theorem ends_coerceStep_fits (recur : Recur) (valid : m.Valid)
    (truthful : m.oracle.Truthful m.types.graph m.limits.variance) (proper : m.types.Proper t) (fits : m.Fits w t) :
    Ends (coerceStep recur w t) m (fun w' m' => w' = w ∧ m' = m) (Overflows m) := by
  unfold coerceStep
  split
  next => exact ⟨rfl, rfl⟩
  next defined =>
    have fits := fits.resolve_left fun known => defined (Word.eq_undefined_of_decode? known)
    have formed {ref : Ref} {r : Record} {tag : TypeId} (found : m.heap.get? ref = some r) (known : r.tag = some tag) :
        m.types.graph.WellFormed tag := ((valid.records found).tagged tag known).1.wellFormed
    rw [ends_bind, ends_node]
    cases shape : m.types.graph.node t with
    | prim p =>
      rw [shape] at fits
      cases p with
      | top => exact ⟨rfl, rfl⟩
      | _ =>
        rcases fits with top | ⟨v, known, prim⟩
        · cases top
        · simp only [ends_bind, ends_decode known, hasPrim_iff.2 prim]
          exact ⟨rfl, rfl⟩
    | closure sig =>
      rw [shape] at fits
      rcases fits with null | ⟨ref, known, r, tag, found, tagged, sub⟩
      · simp only [coerceClosure, ends_bind, ends_decode null]
        exact ⟨rfl, rfl⟩
      · simp only [coerceClosure, ends_bind, ends_decode known, ends_recordAt found, tagged]
        exact ends_related .subtype truthful (formed found tagged) proper.wellFormed sub
    | object props =>
      rw [shape] at fits
      rcases fits with null | ⟨ref, known, r, tag, found, tagged, sub⟩
      · simp only [coerceObject, ends_bind, ends_decode null]
        exact ⟨rfl, rfl⟩
      · simp only [coerceObject, ends_bind, ends_decode known, ends_recordAt found, tagged]
        exact ends_related .subtype truthful (formed found tagged) proper.wellFormed sub
    | array elem =>
      rw [shape] at fits
      rcases fits with null | ⟨ref, known, r, tag, found, tagged, equal⟩
      · simp only [coerceArray, ends_bind, ends_decode null]
        exact ⟨rfl, rfl⟩
      · obtain ⟨d, elems⟩ := valid.elems?_of_equal found tagged shape equal
        simp only [coerceArray, ends_bind, ends_decode known, Value.kind, reduceCtorEq, if_false,
          ends_record?_object known found, elems, tagged]
        exact ends_related .equal truthful (formed found tagged) proper.wellFormed equal
    | map elem =>
      rw [shape] at fits
      rcases fits with null | ⟨ref, known, r, tag, found, tagged, equal⟩
      · simp only [coerceMap, ends_bind, ends_decode null]
        exact ⟨rfl, rfl⟩
      · simp only [coerceMap, ends_bind, ends_decode known, ends_recordAt found, tagged]
        exact ends_related .equal truthful (formed found tagged) proper.wellFormed equal
    | odd =>
      rw [shape] at fits
      exact fits.elim

/-- Outside of any coercion there is a level left for one. -/
theorem ends_coerce_fits (valid : m.Valid) (truthful : m.oracle.Truthful m.types.graph m.limits.variance)
    (proper : m.types.Proper t) (fits : m.Fits w t) (outside : m.depth = 0) (room : 0 < m.limits.coerceDepth) :
    Ends (coerce w (some t)) m (fun w' m' => w' = w ∧ m' = m) (Overflows m) := by
  obtain ⟨budget, levels⟩ := Nat.exists_eq_succ_of_ne_zero (Nat.ne_of_gt room)
  have inside := ends_coerceStep_fits (m := { m with depth := m.depth + 1 }) (coerceWithin budget)
    (valid.reframe rfl rfl) truthful proper fits
  rw [coerce, ends_bind, ends_get, outside, Nat.sub_zero, levels, coerceWithin, ends_nested]
  refine inside.mono ?_ ?_
  · rintro w' _ ⟨rfl, rfl⟩
    exact ⟨rfl, rfl⟩
  · rintro f _ ⟨overflow, rfl⟩
    exact ⟨overflow, rfl⟩

/-- A coercion that has returned had a level of nesting for itself. -/
theorem room_of_coerce {v : Word} {s : TypeId} {m₁ : Machine} (coerced : coerce v (some s) m = .ok w m₁) :
    0 < m.limits.coerceDepth := by
  rw [Nat.pos_iff_ne_zero]
  intro none
  change coerceWithin (m.limits.coerceDepth - m.depth) v (some s) m = _ at coerced
  rw [none, Nat.zero_sub] at coerced
  cases coerced

/-- A value that a coercion has returned is a value of its type from then on, and of every larger type. Whatever
the host does in between, failed coercions included, to coerce it again changes nothing: the value comes back and
the machine is as it was, unless the checker is out of hypotheses. The only larger type that does not take it is
float, for ints. Both types are well formed, and the ids of their properties are issued and not for the empty name,
which coercion takes to mean that an id was never issued. -/
theorem coerce_stable {m m₁ m₂ : Machine} {v w : Word} {s t : TypeId} (reachable : m.Reachable)
    (silent : m.oracle = Oracle.silent) (genuine : m.heap.Genuine v) (proper : m.types.Proper s)
    (coerced : coerce v (some s) m = .ok w m₁) (later : m₁.Leads m₂) (outside : m₂.depth = 0)
    (proper' : m₂.types.Proper t) (sub : m₂.types.graph.Subtype m₂.limits.variance s t) (apart : ¬m₂.Widens s t) :
    coerce w (some t) m₂ = .ok w m₂ ∨ ∃ rel a b,
      coerce w (some t) m₂ = .error (.violation (.hypotheses rel a b)) { m₂ with dirty := true } := by
  have first := (coerce_faithful reachable.valid genuine proper).of_ok coerced
  have valid₁ := first.evolves.valid
  have persists₁ := first.evolves.persists reachable.valid
  obtain ⟨valid₂, persists₂⟩ := later.persists valid₁
  have persists := persists₁.trans persists₂
  have fits₁ : m₁.Fits w s := first.fits (silent ▸ Oracle.silent_truthful _ _)
  have fits₂ : m₂.Fits w t := (fits₁.persists valid₁ (persists₁.proper proper) persists₂).subsume sub apart
  have truthful : m₂.oracle.Truthful m₂.types.graph m₂.limits.variance := by
    rw [persists.oracle, silent]
    exact Oracle.silent_truthful _ _
  have room : 0 < m₂.limits.coerceDepth := persists.limits ▸ room_of_coerce coerced
  have ends := ends_coerce_fits valid₂ truthful proper' fits₂ outside room
  unfold Ends at ends
  split at ends
  next ended =>
    obtain ⟨rfl, rfl⟩ := ends
    exact .inl ended
  next ended =>
    obtain ⟨⟨rel, a, b, rfl⟩, rfl⟩ := ends
    exact .inr ⟨rel, a, b, ended⟩

end Run

namespace Machine

def emptyTypes : TypeStore := { inheritingTypes with graph := (inheritingTypes.graph.add (.object [])).1 }

def coercedOnce : Machine := (Run.coerce (Word.objectRef 2) (some 7)).after inheriting

/-- A coercion of the object to `{readonly x: string}` has failed, and the host has gone on and added a type. -/
def afterFailure : Machine :=
  (modify fun m => { m with types := emptyTypes } : Run Unit).after <|
    (modify (·.recover 0 0) : Run Unit).after <| (Run.coerce (Word.objectRef 2) (some 8)).after coercedOnce

theorem coercedOnce_leads : coercedOnce.Leads afterFailure := by
  have genuine : coercedOnce.heap.Genuine (Word.objectRef 2) :=
    ⟨.object 2, rfl, fun _ same => by cases same; exact ⟨_, rfl, rfl⟩⟩
  have proper : coercedOnce.types.Proper 8 := inheriting_proper 8 (by decide)
  have grown : inheritingTypes.Extends emptyTypes := .of_grows (inheritingTypes.grows_add _) (by decide)
  exact .step (.step (Offers.coerce genuine proper).leads (.recover 0 0)) (.declare grown)

theorem empty_subtype : afterFailure.types.graph.Subtype afterFailure.limits.variance 7 9 := by
  refine Graph.Subtype.coinduct (fun a b => a = 7 ∧ b = 9) ?_ ⟨rfl, rfl⟩
  rintro _ _ ⟨rfl, rfl⟩
  exact List.forall_mem_nil _

end Machine

/-- The object is below `{}` too, after a failure and though that type was not there when it was coerced. -/
theorem Run.coerce_stable_afterFailure :
    coerce (Word.objectRef 2) (some 7) Machine.inheriting = .ok (Word.objectRef 2) Machine.coercedOnce ∧
    Machine.coercedOnce.Leads Machine.afterFailure ∧ Machine.afterFailure.dirty = true ∧
    coerce (Word.objectRef 2) (some 9) Machine.afterFailure = .ok (Word.objectRef 2) Machine.afterFailure := by
  have once : coerce (Word.objectRef 2) (some 7) Machine.inheriting = .ok (Word.objectRef 2) Machine.coercedOnce := rfl
  have proper : Machine.afterFailure.types.Proper 9 := .of_closed [9] (by decide) (by decide)
  have stable := coerce_stable Machine.inheriting_reachable rfl (Machine.inheriting_genuine 2 (by decide))
    (Machine.inheriting_proper 7 (by decide)) once Machine.coercedOnce_leads rfl proper Machine.empty_subtype
    (fun widens => by cases widens.1)
  refine ⟨once, Machine.coercedOnce_leads, rfl, stable.resolve_right ?_⟩
  rintro ⟨rel, a, b, failed⟩
  cases failed

end Gradual
