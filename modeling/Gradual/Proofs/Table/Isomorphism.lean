import Gradual.Proofs.Table.Numbering

/-!
Isomorphic tables. An isomorphism takes the types that one table's names refer to, directly or not, to
those of another table, node by node with everything a node holds; only primitive nodes of one kind may
be taken to one node. Isomorphic tables have the same compiled form, whatever their nodes are.
-/
namespace Gradual

theorem mapM_mapChild {φ : TypeId → TypeId} {f : α → Child} (xs : List α) :
    xs.mapM (fun x => (f x).map φ) = (xs.mapM f).map (·.map φ) := by
  induction xs with
  | nil => rfl
  | cons x xs ih =>
    rw [List.mapM_cons, List.mapM_cons, ih]
    cases f x <;> cases xs.mapM f <;> rfl

namespace Node

def mapTypes (φ : TypeId → TypeId) : Node → Node
  | odd n => odd n
  | prim p => prim p
  | closure s => closure ⟨s.code, s.args.map (·.map φ), s.ret.map φ, s.proto.map φ⟩
  | object ps => object (ps.map fun p => ⟨p.id, p.type.map φ, p.readOnly⟩)
  | array e => array (e.map φ)
  | map e => map (e.map φ)

variable {φ : TypeId → TypeId} {n : Node}

theorem children_mapTypes (φ : TypeId → TypeId) (n : Node) : (n.mapTypes φ).children = n.children.map φ := by
  cases n with
  | odd | prim => rfl
  | closure s =>
    obtain ⟨code, args, ret, proto⟩ := s
    cases ret <;> cases proto <;> simp [mapTypes, children, List.filterMap_map, List.map_filterMap]
  | object ps => simp [mapTypes, children, List.filterMap_map, List.map_filterMap]
  | array e | map e => cases e <;> rfl

theorem parts?_mapTypes (φ : TypeId → TypeId) (n : Node) : (n.mapTypes φ).parts? = n.parts?.map (·.map φ) := by
  cases n with
  | odd code => unfold mapTypes parts?; split <;> simp_all
  | prim => rfl
  | closure s =>
    obtain ⟨code, args, ret, proto⟩ := s
    have given := @mapM_mapChild _ φ id args
    simp only [mapTypes, parts?, List.mapM_map, Function.comp_def, id] at given ⊢
    rw [given]
    cases args.mapM id <;> cases ret <;> cases proto <;> simp
  | object ps =>
    simp only [mapTypes, parts?, List.mapM_map, Function.comp_def]
    exact mapM_mapChild ps
  | array e | map e => cases e <;> rfl

theorem wellFormed_mapTypes (formed : n.WellFormed) : (n.mapTypes φ).WellFormed := by
  cases n with
  | odd => exact formed
  | prim => exact formed
  | closure s =>
    refine ⟨formed.code, fun a member => ?_, by simpa using formed.ret, fun ctor => ?_, fun other => ?_⟩
    · obtain ⟨c, inside, rfl⟩ := List.mem_map.1 member
      simpa using formed.args c inside
    · simpa using formed.proto ctor
    · simpa using formed.receiver other
  | object ps =>
    refine ⟨by simpa [Function.comp_def] using formed.1, fun p member => ?_⟩
    obtain ⟨q, inside, rfl⟩ := List.mem_map.1 member
    simpa using formed.2 q inside
  | array e | map e => simpa [mapTypes, WellFormed] using formed

theorem mapTypes_eq_prim_iff {p : Prim} : n.mapTypes φ = .prim p ↔ n = .prim p := by
  cases n <;> simp [mapTypes]

end Node

namespace CompiledNode

variable {n : Node}

theorem ofNode_mapTypes (position : Child → Int) (φ : TypeId → TypeId) (n : Node) :
    ofNode position (n.mapTypes φ) = ofNode (fun c => position (c.map φ)) n := by
  cases n <;> simp [ofNode, Node.mapTypes, Node.kindCode, Function.comp_def]

theorem ofNode_congr {position position' : Child → Int} (none : position none = position' none)
    (parts : ∀ t ∈ n.children, position (some t) = position' (some t)) : ofNode position n = ofNode position' n := by
  have part (c : Child) (inside : ∀ t, c = some t → t ∈ n.children) : position c = position' c := by
    cases c with
    | none => exact none
    | some t => exact parts t (inside t rfl)
  cases n with
  | odd | prim => rfl
  | closure s =>
    have args : s.args.map position = s.args.map position' :=
      List.map_congr_left fun a member => part a fun t here => by simp [Node.children, ← here, member]
    have ret : position s.ret = position' s.ret := part _ fun t here => by simp [Node.children, here]
    have proto : position s.proto = position' s.proto := part _ fun t here => by simp [Node.children, here]
    simp [ofNode, args, ret, proto]
  | object ps =>
    have props : ps.map (fun p => (⟨p.id, position p.type, p.readOnly⟩ : CompiledProperty)) =
        ps.map fun p => ⟨p.id, position' p.type, p.readOnly⟩ :=
      List.map_congr_left fun p member => by
        rw [part p.type fun t here => List.mem_filterMap.2 ⟨p, member, here⟩]
    simp [ofNode, props]
  | array e | map e =>
    have elem : position e = position' e := part e fun t here => by simp [Node.children, here]
    simp [ofNode, elem]

end CompiledNode

theorem idxOf_map_of_injective_on {φ : TypeId → TypeId} {l : List TypeId} {a : TypeId}
    (injective : ∀ x ∈ l, φ x = φ a → x = a) : (l.map φ).idxOf (φ a) = l.idxOf a := by
  induction l with
  | nil => rfl
  | cons x l ih =>
    have rest := ih fun y member => injective y (List.mem_cons_of_mem _ member)
    have head : φ x = φ a ↔ x = a := ⟨injective x List.mem_cons_self, congrArg φ⟩
    by_cases same : x = a
    · simp [same]
    · simp [List.idxOf_cons, rest, beq_eq_false_iff_ne.2 same, beq_eq_false_iff_ne.2 (mt head.1 same)]

namespace Table

variable {t u : Table} {φ : TypeId → TypeId}

def Reaches (t : Table) (x : TypeId) : Prop := ∃ entry ∈ t.tags, t.graph.Reaches entry.2 x

theorem Reaches.child {x y : TypeId} (h : t.Reaches x) (edge : y ∈ t.graph.children x) : t.Reaches y := by
  obtain ⟨entry, member, path⟩ := h
  exact ⟨entry, member, path.tail edge⟩

/-- A renaming of the types of one table to those of another that keeps all that tables hold: property
names with their ids, names, and nodes with their kinds, codes, flags and references in order. It puts
the shared node of its kind in the place of each primitive node and keeps all other nodes apart. -/
structure Isomorphic (φ : TypeId → TypeId) (t u : Table) : Prop where
  props : u.props = t.props
  tags : u.tags = t.tags.map fun (name, type) => (name, φ type)
  node : ∀ x, t.Reaches x → u.graph.node (φ x) = (t.graph.node x).mapTypes φ
  prim : ∀ x p, t.graph.node x = .prim p → φ x = p.typeId
  injective : ∀ x y, t.Reaches x → t.Reaches y → φ x = φ y → t.graph.shared x = t.graph.shared y
  onto : ∀ y, u.Reaches y → ∃ x, t.Reaches x ∧ φ x = y

/-- What a renaming does not reach, no name refers to. -/
theorem onto_of_node (tags : u.tags = t.tags.map fun (name, type) => (name, φ type))
    (node : ∀ x, t.Reaches x → u.graph.node (φ x) = (t.graph.node x).mapTypes φ) {y : TypeId} (h : u.Reaches y) :
    ∃ x, t.Reaches x ∧ φ x = y := by
  obtain ⟨entry, member, path⟩ := h
  rw [tags] at member
  obtain ⟨root, inside, rfl⟩ := List.mem_map.1 member
  induction path with
  | refl => exact ⟨root.2, ⟨root, inside, .refl⟩, rfl⟩
  | tail _ edge ih =>
    obtain ⟨x, here, rfl⟩ := ih
    rw [Graph.children, node x here, Node.children_mapTypes] at edge
    obtain ⟨z, part, rfl⟩ := List.mem_map.1 edge
    exact ⟨z, here.child part, rfl⟩

namespace Isomorphic

theorem apply_shared (iso : Isomorphic φ t u) (rooted : t.graph.Rooted) (x : TypeId) :
    φ (t.graph.shared x) = φ x := by
  unfold Graph.shared
  split
  · next p prim => rw [iso.prim _ p (rooted p), iso.prim x p prim]
  · rfl

theorem shared_apply (iso : Isomorphic φ t u) {x : TypeId} (here : t.Reaches x) :
    u.graph.shared (φ x) = φ x := by
  have node := iso.node x here
  cases shape : t.graph.node x with
  | prim p => rw [Graph.shared_of_prim (p := p) (by rw [node, shape]; rfl), iso.prim x p shape]
  | _ =>
    refine Graph.shared_of_not_prim fun p prim => ?_
    rw [node, Node.mapTypes_eq_prim_iff, shape] at prim
    cases prim

theorem node_shared (iso : Isomorphic φ t u) (rooted : t.graph.Rooted) {x : TypeId} (here : t.Reaches x) :
    u.graph.node (φ (t.graph.shared x)) = (t.graph.node (t.graph.shared x)).mapTypes φ := by
  rw [iso.apply_shared rooted, iso.node x here, t.graph.node_shared rooted]

/-- Distinct shared nodes stay apart. -/
theorem injective_shared (iso : Isomorphic φ t u) (rooted : t.graph.Rooted) {x y : TypeId} (here : t.Reaches x)
    (there : t.Reaches y) (same : φ (t.graph.shared x) = φ (t.graph.shared y)) :
    t.graph.shared x = t.graph.shared y := by
  rw [iso.apply_shared rooted, iso.apply_shared rooted] at same
  exact iso.injective x y here there same

/-- Numbering goes the same way in both tables. -/
theorem number (iso : Isomorphic φ t u) (rooted : t.graph.Rooted)
    (formed : ∀ x, t.Reaches x → (t.graph.node x).WellFormed) {fuel : Nat} {pending order out : List TypeId}
    (inside : ∀ y ∈ order ++ pending, ∃ x, t.Reaches x ∧ t.graph.shared x = y)
    (h : t.graph.number fuel pending order = some out) :
    u.graph.number fuel (pending.map φ) (order.map φ) = some (out.map φ) := by
  induction fuel generalizing pending order with
  | zero =>
    cases pending with
    | nil => simp_all [Graph.number]
    | cons => simp [Graph.number] at h
  | succ fuel ih =>
    cases pending with
    | nil => simp_all [Graph.number]
    | cons y pending =>
      obtain ⟨x, here, rfl⟩ := inside y (by simp)
      have seen : φ (t.graph.shared x) ∈ order.map φ ↔ t.graph.shared x ∈ order := by
        refine ⟨fun member => ?_, List.mem_map_of_mem⟩
        obtain ⟨z, numbered, same⟩ := List.mem_map.1 member
        obtain ⟨w, there, rfl⟩ := inside z (by simp [numbered])
        rwa [← iso.injective_shared rooted there here same]
      rw [List.map_cons]
      unfold Graph.number at h ⊢
      simp only [seen]
      split_ifs at h ⊢ with old
      · refine ih (fun z member => inside z ?_) h
        simp only [List.mem_append, List.mem_cons] at member ⊢
        tauto
      · obtain ⟨parts, read, rest⟩ := Option.bind_eq_some_iff.1 h
        rw [t.graph.node_shared rooted] at read
        have reached (z : TypeId) (part : z ∈ parts) : t.Reaches z :=
          here.child (((formed x here).mem_parts read).1 part)
        have renamed : (parts.map φ).map u.graph.shared = (parts.map t.graph.shared).map φ := by
          rw [List.map_map, List.map_map]
          refine List.map_congr_left fun z part => ?_
          rw [Function.comp, Function.comp, iso.shared_apply (reached z part), iso.apply_shared rooted]
        have next := ih (fun z member => ?_) rest
        · rw [iso.node_shared rooted here, t.graph.node_shared rooted, Node.parts?_mapTypes, read]
          simpa [renamed] using next
        · simp only [List.mem_append, List.mem_map, List.mem_singleton] at member
          obtain (old | rfl) | ⟨part, inner, rfl⟩ | later := member
          · exact inside z (by simp [old])
          · exact ⟨x, here, rfl⟩
          · exact ⟨part, reached part inner, rfl⟩
          · exact inside z (by simp [later])

theorem roots (iso : Isomorphic φ t u) (rooted : t.graph.Rooted) : u.roots = t.roots.map φ := by
  rw [Table.roots, Table.roots, iso.tags, List.map_map, List.map_map]
  refine List.map_congr_left fun entry member => ?_
  have here : t.Reaches entry.2 := ⟨entry, member, .refl⟩
  exact (iso.shared_apply here).trans (iso.apply_shared rooted entry.2).symm

theorem wellFormed (iso : Isomorphic φ t u) (formed : ∀ x, t.Reaches x → (t.graph.node x).WellFormed) :
    ∀ y, u.Reaches y → (u.graph.node y).WellFormed := by
  intro y there
  obtain ⟨x, here, rfl⟩ := iso.onto y there
  rw [iso.node x here]
  exact Node.wellFormed_mapTypes (formed x here)

end Isomorphic

/-- The numbering of a table whose types have all their parts. -/
theorem numbering_of_formed (rooted : t.graph.Rooted) (formed : ∀ x, t.Reaches x → (t.graph.node x).WellFormed) :
    ∃ order, t.graph.numbering t.roots = some order ∧ order.Nodup ∧
      ∀ y, y ∈ order ↔ ∃ x, t.Reaches x ∧ t.graph.shared x = y := by
  have each : ∀ type ∈ t.tags.map Prod.snd, t.graph.WellFormed type := by
    intro type member x path
    obtain ⟨entry, inside, rfl⟩ := List.mem_map.1 member
    exact formed x ⟨entry, inside, path⟩
  obtain ⟨order, found, once, same⟩ := Graph.numbering_of_wellFormed rooted each
  rw [List.map_map] at found
  refine ⟨order, found, once, fun y => (same y).trans ?_⟩
  simp only [List.mem_map, Reaches]
  constructor
  · rintro ⟨_, ⟨entry, member, rfl⟩, x, path, rfl⟩
    exact ⟨x, ⟨entry, member, path⟩, rfl⟩
  · rintro ⟨x, ⟨entry, member, path⟩, rfl⟩
    exact ⟨_, ⟨entry, member, rfl⟩, x, path, rfl⟩

namespace Isomorphic

theorem compiledBy (iso : Isomorphic φ t u) (rooted : t.graph.Rooted) {order : List TypeId}
    (same : ∀ y, y ∈ order ↔ ∃ x, t.Reaches x ∧ t.graph.shared x = y) :
    u.compiledBy (order.map φ) = t.compiledBy order := by
  have position {x : TypeId} (here : t.Reaches x) :
      u.graph.position (order.map φ) (φ x) = t.graph.position order x := by
    rw [Graph.position, Graph.position, iso.shared_apply here, ← iso.apply_shared rooted,
      idxOf_map_of_injective_on]
    intro y member renamed
    obtain ⟨z, there, rfl⟩ := (same y).1 member
    exact iso.injective_shared rooted there here renamed
  have names : u.tags.map (fun (name, type) => (⟨name, u.graph.position (order.map φ) type⟩ : CompiledName)) =
      t.tags.map fun (name, type) => ⟨name, t.graph.position order type⟩ := by
    rw [iso.tags, List.map_map]
    refine List.map_congr_left fun entry member => ?_
    simp [position ⟨entry, member, .refl⟩]
  have nodes : (order.map φ).map (fun y => CompiledNode.ofNode (u.graph.positionOf (order.map φ)) (u.graph.node y)) =
      order.map fun y => CompiledNode.ofNode (t.graph.positionOf order) (t.graph.node y) := by
    rw [List.map_map]
    refine List.map_congr_left fun y member => ?_
    obtain ⟨x, here, rfl⟩ := (same y).1 member
    rw [Function.comp, iso.node_shared rooted here, CompiledNode.ofNode_mapTypes]
    refine CompiledNode.ofNode_congr rfl fun z part => ?_
    rw [t.graph.node_shared rooted] at part
    exact position (here.child part)
  simp only [Table.compiledBy, iso.props, names, nodes]

/-- The compiled form does not tell isomorphic tables apart. -/
theorem compile_eq (iso : Isomorphic φ t u) (rooted : t.graph.Rooted) (rooted' : u.graph.Rooted)
    (formed : ∀ x, t.Reaches x → (t.graph.node x).WellFormed) : u.compile = t.compile := by
  obtain ⟨order, found, _, same⟩ := numbering_of_formed rooted formed
  obtain ⟨order', found', _⟩ := numbering_of_formed rooted' (iso.wellFormed formed)
  -- the two numberings may take different numbers of steps
  have other : order' = order.map φ := by
    have renamed := iso.number rooted formed (fun y member => ?_) found
    · rw [← iso.roots rooted, List.map_nil] at renamed
      have first := Graph.number_mono renamed (Nat.le_max_left _ (u.roots.length + u.graph.edgeCount))
      have second := Graph.number_mono found' (Nat.le_max_right (t.roots.length + t.graph.edgeCount) _)
      exact Option.some.inj (second.symm.trans first)
    · rw [List.nil_append, Table.roots] at member
      obtain ⟨entry, inside, rfl⟩ := List.mem_map.1 member
      exact ⟨entry.2, ⟨entry, inside, .refl⟩, rfl⟩
  simp only [Table.compile, found, found', other, iso.compiledBy rooted same, iso.props]

end Isomorphic

end Table

end Gradual
