import Gradual.Proofs.Types.Decision

/-!
The infinite type that a node stands for. Following parts from a node gives a tree, infinite if the
graph is cyclic, and the tree is told by what is seen at the end of each path. Nodes that were built
apart or unrolled differently can have the same tree, and they are structurally equal exactly then.
-/
namespace Gradual

inductive Edge where
  | argument (index : Nat)
  | result
  | prototype
  | property (id : PropId)
  | element
  deriving DecidableEq, Repr

/-- What is seen of a type without a look at its parts. The properties of an object type are seen as a
map from ids to read-only flags, so their order does not show. -/
inductive Label where
  | odd (code : Nat)
  | prim (p : Prim)
  | closure (code : CodeKind) (arity : Nat)
  | object (readOnly : PropId → Option Bool)
  | array
  | map

namespace Node

def label : Node → Label
  | .odd n => .odd n
  | .prim p => .prim p
  | .closure s => .closure s.code s.args.length
  | .object ps => .object fun id => (Property.find? ps id).map (·.readOnly)
  | .array _ => .array
  | .map _ => .map

def follow : Node → Edge → Child
  | .closure s, .argument i => s.args[i]?.join
  | .closure s, .result => s.ret
  | .closure s, .prototype => if s.code = .constructor then s.proto else none
  | .object ps, .property id => (Property.find? ps id).bind (·.type)
  | .array e, .element | .map e, .element => e
  | _, _ => none

end Node

namespace Graph

def walk (g : Graph) (t : TypeId) : List Edge → Option TypeId
  | [] => some t
  | e :: path => ((g.node t).follow e).bind (g.walk · path)

/-- The tree of a type: what is seen at the end of each path. -/
def unfolding (g : Graph) (t : TypeId) (path : List Edge) : Option Label :=
  (g.walk t path).map fun u => (g.node u).label

end Graph

namespace Node

variable {m n : Node} {R : TypeId → TypeId → Prop}

theorem follow_mem_children {e : Edge} {t : TypeId} (part : n.follow e = some t) : t ∈ n.children := by
  unfold follow at part
  split at part
  next s i =>
    have present : s.args[i]? = some (some t) := Option.join_eq_some_iff.1 part
    exact closure_children (.inr (.inl (List.mem_of_getElem? present))) rfl
  · exact closure_children (.inl rfl) part
  · split at part
    · exact closure_children (.inr (.inr rfl)) part
    · cases part
  · obtain ⟨p, found, type⟩ := Option.bind_eq_some_iff.1 part
    exact object_children (Property.mem_of_find? found).1 type
  · simp [children, part]
  · simp [children, part]
  · cases part

/-- Object types that agree on an id both have a property with it, or both have none. -/
theorem find?_related {ps qs : List Property} (h : (object ps).EqualBy R (object qs)) (id : PropId) :
    Option.Rel (fun p q => p.readOnly = q.readOnly ∧ Option.Rel R p.type q.type)
      (Property.find? ps id) (Property.find? qs id) := by
  have absent {xs : List Property} (none : Property.find? xs id = none) : id ∉ xs.map (·.id) := by
    intro member
    obtain ⟨x, inside, rfl⟩ := List.mem_map.1 member
    simpa using List.find?_eq_none.1 none x inside
  cases left : Property.find? ps id with
  | none =>
    cases right : Property.find? qs id with
    | none => exact .none
    | some q =>
      obtain ⟨member, rfl⟩ := Property.mem_of_find? right
      exact absurd ((h.1 q.id).2 (List.mem_map_of_mem member)) (absent left)
  | some p =>
    obtain ⟨member, rfl⟩ := Property.mem_of_find? left
    cases right : Property.find? qs p.id with
    | none => exact absurd ((h.1 p.id).1 (List.mem_map_of_mem member)) (absent right)
    | some q =>
      obtain ⟨member', same⟩ := Property.mem_of_find? right
      exact .some (h.2 p member q member' same.symm)

theorem EqualBy.label (h : m.EqualBy R n) : m.label = n.label := by
  unfold EqualBy at h
  split at h
  next => rw [h]
  next => rw [Node.label, Node.label, h.1, h.2.1.length_eq]
  next ps qs =>
    refine congrArg Label.object (funext fun id => ?_)
    have related := find?_related h id
    generalize Property.find? ps id = p, Property.find? qs id = q at related ⊢
    cases related with
    | none => rfl
    | some same => exact congrArg some same.1
  next => rfl
  next => rfl
  next => exact h.elim

theorem EqualBy.follow (h : m.EqualBy R n) (e : Edge) : Option.Rel R (m.follow e) (n.follow e) := by
  unfold EqualBy at h
  split at h
  next => exact .none
  next x y =>
    obtain ⟨code, args, ret, proto⟩ := h
    cases e with
    | argument i =>
      have places := List.forall₂_iff_get.1 args
      by_cases inside : i < x.args.length
      · have inside' : i < y.args.length := args.length_eq ▸ inside
        simpa [Node.follow, inside, inside'] using places.2 i inside inside'
      · have outside : ¬ i < y.args.length := args.length_eq ▸ inside
        simp [Node.follow, List.getElem?_eq_none (Nat.le_of_not_lt inside),
          List.getElem?_eq_none (Nat.le_of_not_lt outside)]
    | result => exact ret
    | prototype =>
      simp only [Node.follow, ← code]
      split
      next ctor => exact proto ctor
      next => exact .none
    | property | element => exact .none
  next ps qs =>
    cases e with
    | property id =>
      simp only [Node.follow]
      have related := find?_related h id
      generalize Property.find? ps id = p, Property.find? qs id = q at related ⊢
      cases related with
      | none => exact .none
      | some same => exact same.2
    | _ => exact .none
  next =>
    cases e with
    | element => exact h
    | _ => exact .none
  next =>
    cases e with
    | element => exact h
    | _ => exact .none
  next => exact h.elim

/-- Nodes that look alike and have related parts are equal by the rules. -/
theorem equalBy_of_label (left : m.WellFormed) (right : n.WellFormed) (same : m.label = n.label)
    (parts : ∀ e a b, m.follow e = some a → n.follow e = some b → R a b) : m.EqualBy R n := by
  cases m with
  | odd => exact left.elim
  | prim p =>
    cases n with
    | prim q => exact Label.prim.inj same
    | _ => cases same
  | closure x =>
    cases n with
    | closure y =>
      obtain ⟨code, arity⟩ := Label.closure.inj same
      refine ⟨code, List.forall₂_iff_get.2 ⟨arity, fun i inside inside' => ?_⟩, ?_, fun ctor => ?_⟩
      · refine related_of_some (left.args _ (List.get_mem _ _)) (right.args _ (List.get_mem _ _)) ?_
        intro a b here there
        rw [List.get_eq_getElem] at here there
        exact parts (.argument i) a b (by simp [follow, inside, here]) (by simp [follow, inside', there])
      · exact related_of_some left.ret right.ret fun a b => parts .result a b
      · have ctor' : y.code = .constructor := code ▸ ctor
        refine related_of_some (left.proto ctor) (right.proto ctor') fun a b here there => ?_
        exact parts .prototype a b (by simp [follow, ctor, here]) (by simp [follow, ctor', there])
    | _ => cases same
  | object ps =>
    cases n with
    | object qs =>
      have flags (id : PropId) : (Property.find? ps id).map (·.readOnly) = (Property.find? qs id).map (·.readOnly) :=
        congrFun (Label.object.inj same) id
      have shared {xs ys : List Property} (distinct : (xs.map (·.id)).Nodup)
          (flags : ∀ id, (Property.find? xs id).map (·.readOnly) = (Property.find? ys id).map (·.readOnly))
          {id : PropId} (member : id ∈ xs.map (·.id)) : id ∈ ys.map (·.id) := by
        obtain ⟨x, inside, rfl⟩ := List.mem_map.1 member
        have found := flags x.id
        rw [Property.find?_eq_of_mem distinct inside, Option.map_some] at found
        obtain ⟨y, found, _⟩ := Option.map_eq_some_iff.1 found.symm
        obtain ⟨inside', same⟩ := Property.mem_of_find? found
        exact List.mem_map.2 ⟨y, inside', same⟩
      refine ⟨fun id => ⟨shared left.1 flags, shared right.1 fun id => (flags id).symm⟩, fun p hp q hq agree => ?_⟩
      have here := Property.find?_eq_of_mem left.1 hp
      have there : Property.find? qs p.id = some q := agree ▸ Property.find?_eq_of_mem right.1 hq
      have flag := flags p.id
      rw [here, there] at flag
      refine ⟨Option.some.inj flag, related_of_some (left.2 p hp) (right.2 q hq) fun a b type type' => ?_⟩
      exact parts (.property p.id) a b (by simp [follow, here, type]) (by simp [follow, there, type'])
    | _ => cases same
  | array e =>
    cases n with
    | array e' => exact related_of_some left right fun a b => parts .element a b
    | _ => cases same
  | map e =>
    cases n with
    | map e' => exact related_of_some left right fun a b => parts .element a b
    | _ => cases same

end Node

namespace Graph

variable {g : Graph} {a b : TypeId}

theorem Equal.unfolding_eq (h : g.Equal a b) : g.unfolding a = g.unfolding b := by
  funext path
  induction path generalizing a b with
  | nil => exact congrArg some h.parts.label
  | cons e path ih =>
    have parts := h.parts.follow e
    simp only [unfolding, walk]
    generalize (g.node a).follow e = c, (g.node b).follow e = d at parts ⊢
    cases parts with
    | none => rfl
    | some parts => exact ih parts

/-- Structural equality is equality of the infinite types. -/
theorem equal_iff_unfolding (left : g.WellFormed a) (right : g.WellFormed b) :
    g.Equal a b ↔ g.unfolding a = g.unfolding b := by
  refine ⟨Equal.unfolding_eq, fun same => ?_⟩
  refine Equal.coinduct (fun a b => g.WellFormed a ∧ g.WellFormed b ∧ g.unfolding a = g.unfolding b) ?_
    ⟨left, right, same⟩
  rintro a b ⟨left, right, same⟩
  have here : (g.node a).label = (g.node b).label := Option.some.inj (congrFun same [])
  refine Node.equalBy_of_label left.node right.node here fun e c d part part' => ?_
  refine ⟨left.child (Node.follow_mem_children part), right.child (Node.follow_mem_children part'), ?_⟩
  funext path
  simpa [unfolding, walk, part, part'] using congrFun same (e :: path)

end Graph

end Gradual
