import Gradual.Proofs.Types.Relations
import Gradual.Proofs.Types.Sketch

/-!
Sketches of the types of a graph. A sketch portrays a node if it has its form, its parts portray the parts of the node,
and a label that is referred to is that of the node around this place which it marks. Types with the same portrait are
structurally equal: the pairs of nodes that are portrayed by the same piece of it are closed under the rules of
equality. Main statement: `Portrays.equal`.
-/
namespace Gradual

def Property.ordered (ps : List Property) : List Property := ps.mergeSort fun p q => p.id ≤ q.id

theorem Property.mem_ordered {ps : List Property} {p : Property} : p ∈ ordered ps ↔ p ∈ ps := List.mem_mergeSort

namespace Node

variable {m n : Node} {form : Form} {R : TypeId → TypeId → Prop}

def form? : Node → Option Form
  | closure s => some (.closure s.code s.args.length)
  | object ps => some (.object ((Property.ordered ps).map fun p => (p.id, p.readOnly)))
  | array _ => some .array
  | map _ => some .map
  | odd _ | prim _ => none

def spread : Node → List Child
  | closure s => s.args ++ s.ret :: if s.code = .constructor then [s.proto] else []
  | object ps => (Property.ordered ps).map (·.type)
  | array e | map e => [e]
  | odd _ | prim _ => []

theorem length_spread (shape : n.form? = some form) : n.spread.length = form.count := by
  cases n with
  | closure s =>
    cases shape
    rw [spread, Form.count]
    split <;> simp
  | object ps =>
    cases shape
    simp [spread, Form.count]
  | array | map =>
    cases shape
    rfl
  | odd | prim => cases shape

theorem closure_equalBy {s s' : Signature} (code : s.code = s'.code) (arity : s.args.length = s'.args.length)
    (parts : List.Forall₂ (Option.Rel R) (closure s).spread (closure s').spread) :
    (closure s).EqualBy R (closure s') := by
  have args := List.forall₂_take_append _ _ _ parts
  have results := List.forall₂_drop_append _ _ _ parts
  rw [← arity, spread, List.take_left] at args
  rw [← arity, spread, List.drop_left, ← code] at results
  obtain ⟨ret, protos⟩ := List.forall₂_cons.1 results
  refine ⟨code, args, ret, fun ctor => ?_⟩
  rw [if_pos ctor, if_pos ctor] at protos
  exact (List.forall₂_cons.1 protos).1

/-- Properties in order are paired by their ids, of which there are no two. -/
theorem object_equalBy {ps qs : List Property} (distinct : (qs.map (·.id)).Nodup)
    (fields : (Property.ordered ps).map (fun p => (p.id, p.readOnly)) =
      (Property.ordered qs).map fun p => (p.id, p.readOnly))
    (parts : List.Forall₂ (Option.Rel R) (object ps).spread (object qs).spread) :
    (object ps).EqualBy R (object qs) := by
  have flags : List.Forall₂ (fun p q : Property => (p.id, p.readOnly) = (q.id, q.readOnly)) (Property.ordered ps)
      (Property.ordered qs) := by
    rw [← List.forall₂_eq_eq_eq, List.forall₂_map_left_iff, List.forall₂_map_right_iff] at fields
    exact fields
  rw [spread, spread, List.forall₂_map_left_iff, List.forall₂_map_right_iff] at parts
  have paired {p : Property} (member : p ∈ ps) :
      ∃ q ∈ qs, p.id = q.id ∧ p.readOnly = q.readOnly ∧ Option.Rel R p.type q.type := by
    obtain ⟨i, inside, rfl⟩ := List.getElem_of_mem (Property.mem_ordered.2 member)
    have inside' : i < (Property.ordered qs).length := flags.length_eq ▸ inside
    obtain ⟨id, flag⟩ := Prod.mk.inj ((List.forall₂_iff_get.1 flags).2 i inside inside')
    exact ⟨_, Property.mem_ordered.1 (List.getElem_mem inside'), id, flag,
      (List.forall₂_iff_get.1 parts).2 i inside inside'⟩
  refine ⟨fun id => ?_, fun p member q member' same => ?_⟩
  · have ids : (Property.ordered ps).map (·.id) = (Property.ordered qs).map (·.id) := by
      simpa [List.map_map, Function.comp_def] using congrArg (List.map Prod.fst) fields
    have order (ps : List Property) : ((Property.ordered ps).map (·.id)).Perm (ps.map (·.id)) :=
      (List.mergeSort_perm ps _).map _
    rw [← (order ps).mem_iff, ids, (order qs).mem_iff]
  · obtain ⟨q', member'', id, flag, type⟩ := paired member
    obtain rfl : q' = q := List.inj_on_of_nodup_map distinct member'' member' (id.symm.trans same)
    exact ⟨flag, type⟩

/-- Nodes of one form are equal if their parts are, one by one. -/
theorem equalBy_of_form (shape : m.form? = some form) (shape' : n.form? = some form) (formed : n.WellFormed)
    (parts : List.Forall₂ (Option.Rel R) m.spread n.spread) : m.EqualBy R n := by
  have same := shape.trans shape'.symm
  cases m with
  | closure s =>
    cases n with
    | closure s' =>
      simp only [form?, Option.some.injEq, Form.closure.injEq] at same
      exact closure_equalBy same.1 same.2 parts
    | _ => simp [form?] at same
  | object ps =>
    cases n with
    | object qs =>
      simp only [form?, Option.some.injEq, Form.object.injEq] at same
      exact object_equalBy formed.1 same parts
    | _ => simp [form?] at same
  | array e =>
    cases n with
    | array e' => exact (List.forall₂_cons.1 parts).1
    | _ => simp [form?] at same
  | map e =>
    cases n with
    | map e' => exact (List.forall₂_cons.1 parts).1
    | _ => simp [form?] at same
  | odd | prim => cases shape

end Node

/-- The sketch stands for the type at a place where the marks in scope are those of the nodes around it. A reference is
to the node with its label, of which there is exactly one in scope. -/
inductive Portrays (g : Graph) : List (Nat × TypeId) → Sketch → Child → Prop where
  | prim {scope : List (Nat × TypeId)} {p : Prim} {t : TypeId} (shape : g.node t = .prim p) :
      Portrays g scope (.prim p) (some t)
  | back {scope : List (Nat × TypeId)} {label : Nat} {t : TypeId}
      (marked : scope.filter (fun mark => mark.1 = label) = [(label, t)]) : Portrays g scope (.back label) (some t)
  | mark {scope : List (Nat × TypeId)} {label : Nat} {form : Form} {parts : List Sketch} {t : TypeId}
      (inner : Portrays g ((label, t) :: scope) (.node form parts) (some t)) :
      Portrays g scope (.mark label (.node form parts)) (some t)
  | node {scope : List (Nat × TypeId)} {form : Form} {parts : List Sketch} {t : TypeId} (formed : (g.node t).WellFormed)
      (shape : (g.node t).form? = some form) (count : parts.length = (g.node t).spread.length)
      (each : ∀ s c, (s, c) ∈ parts.zip (g.node t).spread → Portrays g scope s c) :
      Portrays g scope (.node form parts) (some t)

inductive Twins (g : Graph) : List (Nat × TypeId) → List (Nat × TypeId) → Prop where
  | nil : Twins g [] []
  | cons {scope scope' : List (Nat × TypeId)} {label : Nat} {inner : Sketch} {t t' : TypeId}
      (outer : Twins g scope scope') (left : Portrays g scope (.mark label inner) (some t))
      (right : Portrays g scope' (.mark label inner) (some t')) : Twins g ((label, t) :: scope) ((label, t') :: scope')

/-- Two nodes that are portrayed by the same piece of a text, which is no reference to another one. -/
def Alike (g : Graph) (x y : TypeId) : Prop :=
  ∃ s scope scope', (∀ label, s ≠ .back label) ∧ Twins g scope scope' ∧ Portrays g scope s (some x) ∧
    Portrays g scope' s (some y)

namespace Portrays

variable {g : Graph} {scope scope' : List (Nat × TypeId)} {s : Sketch} {x y : TypeId} {c c' : Child}

/-- A label leads to nodes that were marked together. -/
theorem alike_of_marked (twins : Twins g scope scope') {label : Nat}
    (left : scope.filter (fun mark => mark.1 = label) = [(label, x)])
    (right : scope'.filter (fun mark => mark.1 = label) = [(label, y)]) : Alike g x y := by
  induction twins with
  | nil => cases left
  | @cons scope scope' k inner t t' outer marks marks' ih =>
    by_cases same : k = label
    · simp only [List.filter_cons, same, decide_true, if_true, List.cons.injEq, Prod.mk.injEq, true_and] at left right
      obtain ⟨rfl, _⟩ := left
      obtain ⟨rfl, _⟩ := right
      exact ⟨_, _, _, by simp, outer, marks, marks'⟩
    · simp only [List.filter_cons, same, decide_false, Bool.false_eq_true, if_false] at left right
      exact ih left right

theorem exists_eq (portrays : Portrays g scope s c) : ∃ t, c = some t := by
  cases portrays <;> exact ⟨_, rfl⟩

/-- Nodes with the same portrait are alike, if need be by way of what the portrait refers to. -/
theorem related (twins : Twins g scope scope') (left : Portrays g scope s c) (right : Portrays g scope' s c') :
    Option.Rel (Alike g) c c' := by
  obtain ⟨x, rfl⟩ := left.exists_eq
  obtain ⟨y, rfl⟩ := right.exists_eq
  by_cases reference : ∃ label, s = .back label
  · obtain ⟨label, rfl⟩ := reference
    cases left with | back marked =>
    cases right with | back marked' =>
    exact .some (alike_of_marked twins marked marked')
  · exact .some ⟨s, _, _, fun label same => reference ⟨label, same⟩, twins, left, right⟩

theorem node_equalBy {form : Form} {parts : List Sketch} (twins : Twins g scope scope')
    (left : Portrays g scope (.node form parts) (some x)) (right : Portrays g scope' (.node form parts) (some y)) :
    (g.node x).EqualBy (Alike g) (g.node y) := by
  cases left with | node _ shape count each =>
  cases right with | node formed shape' count' each' =>
  have pieces : List.Forall₂ (flip (Portrays g scope)) (g.node x).spread parts :=
    (List.forall₂_iff_zip.2 ⟨count, @each⟩).flip
  have pieces' := List.forall₂_iff_zip.2 ⟨count', @each'⟩
  have parts := forall₂_trans (R := flip (Portrays g scope)) (S := Portrays g scope') (T := Option.Rel (Alike g))
    (fun _ _ _ here here' => related twins here here') pieces pieces'
  exact Node.equalBy_of_form shape shape' formed parts

end Portrays

/-- The rules of equality lead from pieces of a portrait to pieces of it. -/
theorem Alike.equalBy {g : Graph} {x y : TypeId} (alike : Alike g x y) : (g.node x).EqualBy (Alike g) (g.node y) := by
  obtain ⟨s, scope, scope', whole, twins, left, right⟩ := alike
  cases s with
  | prim p =>
    cases left with | prim shape =>
    cases right with | prim shape' =>
    rw [shape, shape']
    rfl
  | back label => exact absurd rfl (whole label)
  | mark label inner =>
    cases left with | mark inside =>
    cases right with | mark inside' =>
    exact Portrays.node_equalBy (.cons twins (.mark inside) (.mark inside')) inside inside'
  | node form parts => exact Portrays.node_equalBy twins left right

theorem Portrays.equal {g : Graph} {s : Sketch} {x y : TypeId} (left : Portrays g [] s (some x))
    (right : Portrays g [] s (some y)) : g.Equal x y := by
  cases related .nil left right with
  | some alike => exact Graph.Equal.coinduct (Alike g) (fun _ _ => Alike.equalBy) alike

end Gradual
