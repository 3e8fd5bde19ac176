import Gradual.Proofs.Table.Canonical
import Gradual.Proofs.Types.Locality
import Gradual.Proofs.Types.Order

/-!
Isomorphic tables relate their types alike, and so do tables with one compiled form: the form says all
that equality and subtyping depend on. What was found out about the names of one table holds for the
names of another that compiles to the same form, however the nodes of the two are shared.
-/
namespace Gradual

theorem related_map {R : TypeId → TypeId → Prop} {φ : TypeId → TypeId} {a b : Child} :
    Option.Rel R (a.map φ) (b.map φ) ↔ Option.Rel (fun x y => R (φ x) (φ y)) a b := by
  cases a <;> cases b <;> simp

theorem Signature.answers_map {s t : Signature} {f : Child → Child} {wanted : List Child} {ret ret' proto proto' : Child} :
    Signature.Answers ⟨s.code, s.args.map f, ret, proto⟩ ⟨t.code, t.args.map f, ret', proto'⟩ wanted ↔
      ∃ ws, wanted = ws.map f ∧ s.Answers t ws := by
  simp only [Signature.Answers]
  constructor
  · rintro (⟨same, rfl⟩ | ⟨function, method, recv, split⟩)
    · exact ⟨t.args, rfl, .inl ⟨same, rfl⟩⟩
    · obtain ⟨recv', ws, split', rfl, rfl⟩ := List.map_eq_cons_iff.1 split
      exact ⟨ws, rfl, .inr ⟨function, method, recv', split'⟩⟩
  · rintro ⟨ws, rfl, ⟨same, rfl⟩ | ⟨function, method, recv, split⟩⟩
    · exact .inl ⟨same, rfl⟩
    · exact .inr ⟨function, method, f recv, by rw [split, List.map_cons]⟩

theorem Variance.orient_map (v : Variance) {R : TypeId → TypeId → Prop} {φ : TypeId → TypeId} {a b : Child} :
    v.orient (Option.Rel R) (a.map φ) (b.map φ) ↔ v.orient (Option.Rel fun x y => R (φ x) (φ y)) a b := by
  cases v with
  | covariant => exact related_map
  | contravariant => exact related_map

namespace Node

variable {R E S : TypeId → TypeId → Prop} {v : Variance} {φ : TypeId → TypeId} {m n : Node}

theorem equalBy_mapTypes : (m.mapTypes φ).EqualBy R (n.mapTypes φ) ↔ m.EqualBy (fun x y => R (φ x) (φ y)) n := by
  cases m <;> cases n <;>
    simp [mapTypes, EqualBy, related_map, List.forall₂_map_left_iff, List.forall₂_map_right_iff, Function.comp_def]

theorem subtypeBy_mapTypes : (m.mapTypes φ).SubtypeBy v E S (n.mapTypes φ) ↔
    m.SubtypeBy v (fun x y => E (φ x) (φ y)) (fun x y => S (φ x) (φ y)) n := by
  cases m with
  | closure s =>
    cases n with
    | closure t =>
      simp only [mapTypes, SubtypeBy, Signature.answers_map]
      constructor
      · rintro ⟨_, ⟨wanted, rfl, answers⟩, ret, args, proto⟩
        rw [List.forall₂_map_left_iff, List.forall₂_map_right_iff] at args
        exact ⟨wanted, answers, related_map.1 ret, args.imp fun _ _ => v.orient_map.1,
          fun ctor => related_map.1 (proto ctor)⟩
      · rintro ⟨wanted, answers, ret, args, proto⟩
        refine ⟨_, ⟨wanted, rfl, answers⟩, related_map.2 ret, ?_, fun ctor => related_map.2 (proto ctor)⟩
        rw [List.forall₂_map_left_iff, List.forall₂_map_right_iff]
        exact args.imp fun _ _ => v.orient_map.2
    | _ => exact Iff.rfl
  | _ => cases n <;> simp [mapTypes, SubtypeBy, related_map]

end Node

namespace Table

variable {t u : Table} {φ : TypeId → TypeId} {v : Variance} {a b : TypeId}

theorem Reaches.among (left : t.Reaches a) (right : t.Reaches b) {x : TypeId}
    (part : x ∈ (t.graph.node a).children ++ (t.graph.node b).children) : t.Reaches x :=
  (List.mem_append.1 part).elim left.child right.child

namespace Isomorphic

theorem equal_iff (iso : Isomorphic φ t u) (left : t.Reaches a) (right : t.Reaches b) :
    t.graph.Equal a b ↔ u.graph.Equal (φ a) (φ b) := by
  constructor
  · intro equal
    let Image (x y : TypeId) : Prop := ∃ a b, t.Reaches a ∧ t.Reaches b ∧ φ a = x ∧ φ b = y ∧ t.graph.Equal a b
    refine Graph.Equal.coinduct Image ?_ ⟨a, b, left, right, rfl, rfl, equal⟩
    rintro _ _ ⟨a, b, left, right, rfl, rfl, equal⟩
    rw [iso.node a left, iso.node b right, Node.equalBy_mapTypes]
    apply equal.parts.among.mono
    rintro x y ⟨hx, hy, equal⟩
    exact ⟨x, y, left.among right hx, left.among right hy, rfl, rfl, equal⟩
  · intro equal
    let Inverse (a b : TypeId) : Prop := t.Reaches a ∧ t.Reaches b ∧ u.graph.Equal (φ a) (φ b)
    refine Graph.Equal.coinduct Inverse ?_ ⟨left, right, equal⟩
    rintro a b ⟨left, right, equal⟩
    have parts := equal.parts
    rw [iso.node a left, iso.node b right, Node.equalBy_mapTypes] at parts
    apply parts.among.mono
    rintro x y ⟨hx, hy, equal⟩
    exact ⟨left.among right hx, left.among right hy, equal⟩

theorem subtype_iff (iso : Isomorphic φ t u) (left : t.Reaches a) (right : t.Reaches b) :
    t.graph.Subtype v a b ↔ u.graph.Subtype v (φ a) (φ b) := by
  constructor
  · intro subtype
    let Image (x y : TypeId) : Prop := ∃ a b, t.Reaches a ∧ t.Reaches b ∧ φ a = x ∧ φ b = y ∧ t.graph.Subtype v a b
    refine Graph.Subtype.coinduct Image ?_ ⟨a, b, left, right, rfl, rfl, subtype⟩
    rintro _ _ ⟨a, b, left, right, rfl, rfl, subtype⟩
    rw [iso.node a left, iso.node b right, Node.subtypeBy_mapTypes]
    apply subtype.parts.among.mono
    · rintro x y ⟨hx, hy, equal⟩
      exact (iso.equal_iff (left.among right hx) (left.among right hy)).1 equal
    · rintro x y ⟨hx, hy, subtype⟩
      exact ⟨x, y, left.among right hx, left.among right hy, rfl, rfl, subtype⟩
  · intro subtype
    let Inverse (a b : TypeId) : Prop := t.Reaches a ∧ t.Reaches b ∧ u.graph.Subtype v (φ a) (φ b)
    refine Graph.Subtype.coinduct Inverse ?_ ⟨left, right, subtype⟩
    rintro a b ⟨left, right, subtype⟩
    have parts := subtype.parts
    rw [iso.node a left, iso.node b right, Node.subtypeBy_mapTypes] at parts
    apply parts.among.mono
    · rintro x y ⟨hx, hy, equal⟩
      exact (iso.equal_iff (left.among right hx) (left.among right hy)).2 equal
    · rintro x y ⟨hx, hy, subtype⟩
      exact ⟨left.among right hx, left.among right hy, subtype⟩

theorem related_iff (iso : Isomorphic φ t u) {rel : Relation} (left : t.Reaches a) (right : t.Reaches b) :
    t.graph.Related v rel a b ↔ u.graph.Related v rel (φ a) (φ b) := by
  cases rel with
  | subtype => exact iso.subtype_iff left right
  | equal => exact iso.equal_iff left right

theorem lookup (iso : Isomorphic φ t u) (name : String) : u.tags.lookup name = (t.tags.lookup name).map φ := by
  rw [iso.tags]
  induction t.tags with
  | nil => rfl
  | cons entry tags ih =>
    rw [List.map_cons, List.lookup_cons, List.lookup_cons, ih]
    split <;> rfl

end Isomorphic

theorem reaches_of_lookup {name : String} (h : t.tags.lookup name = some a) : t.Reaches a := by
  obtain ⟨before, after, split, _⟩ := List.lookup_eq_some_iff.1 h
  exact ⟨(name, a), by simp [split], .refl⟩

/-- Tables with one compiled form relate types of the same names alike. -/
theorem related_of_compile_eq {t' : Table} (compilable : t.Compilable) (compilable' : t'.Compilable)
    (same : t.compile = t'.compile) {rel : Relation} {left right : String} {a b a' b' : TypeId}
    (here : t.tags.lookup left = some a) (there : t.tags.lookup right = some b)
    (here' : t'.tags.lookup left = some a') (there' : t'.tags.lookup right = some b') :
    t.graph.Related v rel a b ↔ t'.graph.Related v rel a' b' := by
  obtain ⟨order, numbering, compiled⟩ := compilable.compile
  obtain ⟨order', numbering', compiled'⟩ := compilable'.compile
  have form : t.compiledBy order = t'.compiledBy order' :=
    Except.ok.inj (compiled.symm.trans (same.trans compiled'))
  -- both are isomorphic to what the one form is linked to
  have matched := (numbering.corresponds numbering' compilable compilable' form).matched compilable.toOrdered
    compilable'.toOrdered
  obtain ⟨φ, iso⟩ : ∃ φ, Isomorphic φ t (t'.relinked order') := ⟨_, matched.isomorphic compilable'.rooted numbering'⟩
  have iso' := numbering'.isomorphic
  have named {name : String} {x x' : TypeId} (h : t.tags.lookup name = some x) (h' : t'.tags.lookup name = some x') :
      φ x = t'.placed order' x' := by
    have one := iso.lookup name
    have two := iso'.lookup name
    rw [h] at one
    rw [h', one] at two
    exact Option.some.inj two
  rw [iso.related_iff (reaches_of_lookup here) (reaches_of_lookup there), named here here', named there there',
    iso'.related_iff (reaches_of_lookup here') (reaches_of_lookup there')]

end Table

end Gradual
