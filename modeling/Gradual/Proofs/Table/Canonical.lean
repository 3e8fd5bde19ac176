import Gradual.Proofs.Table.Writing
import Mathlib.Data.List.Sort
import Mathlib.Data.Set.Function

/-!
The compiled form is canonical. Two tables have the same bytes exactly if their property names agree and the
nodes that their names refer to correspond one to one, each primitive type taken as one node. So neither the
order in which types were named has an influence on the bytes nor where their nodes are. Main statement:
`encode_eq_iff`.
-/
namespace Gradual

namespace Node

variable {n n' : Node} {f f' g : TypeId → TypeId}

theorem mapTypes_mapTypes (g f : TypeId → TypeId) (n : Node) :
    (n.mapTypes f).mapTypes g = n.mapTypes fun x => g (f x) := by
  cases n <;> simp [mapTypes, Function.comp_def]

theorem mapTypes_congr (same : ∀ x ∈ n.children, f x = g x) : n.mapTypes f = n.mapTypes g := by
  have part (c : Child) (inside : ∀ x, c = some x → x ∈ n.children) : c.map f = c.map g := by
    cases c with
    | none => rfl
    | some x => exact congrArg some (same x (inside x rfl))
  cases n with
  | odd | prim => rfl
  | closure s =>
    have args : s.args.map (·.map f) = s.args.map (·.map g) :=
      List.map_congr_left fun a member => part a fun x here => by simp [children, ← here, member]
    have ret : s.ret.map f = s.ret.map g := part _ fun x here => by simp [children, here]
    have proto : s.proto.map f = s.proto.map g := part _ fun x here => by simp [children, here]
    simp only [mapTypes, args, ret, proto]
  | object ps =>
    refine congrArg object (List.map_congr_left fun p member => ?_)
    rw [part p.type fun x here => List.mem_filterMap.2 ⟨p, member, here⟩]
  | array e => exact congrArg array (part e fun x here => by simp [children, here])
  | map e => exact congrArg map (part e fun x here => by simp [children, here])

end Node

/-- Lists that agree entry by entry in one view agree in another one that it determines. -/
theorem map_eq_map_of {g : α → γ} {g' : β → γ} {h : α → δ} {h' : β → δ} {xs : List α} {ys : List β}
    (each : ∀ x ∈ xs, ∀ y ∈ ys, g x = g' y → h x = h' y) (same : xs.map g = ys.map g') : xs.map h = ys.map h' := by
  induction xs generalizing ys with
  | nil =>
    obtain rfl := List.map_eq_nil_iff.1 same.symm
    rfl
  | cons x xs ih =>
    cases ys with
    | nil => cases same
    | cons y ys =>
      obtain ⟨head, tail⟩ := List.cons.inj same
      rw [List.map_cons, List.map_cons, each x List.mem_cons_self y List.mem_cons_self head, ih ?_ tail]
      exact fun a inside b there => each a (List.mem_cons_of_mem _ inside) b (List.mem_cons_of_mem _ there)

/-- Compiled nodes tell well-formed nodes apart as far as positions tell apart what they refer to. -/
theorem CompiledNode.ofNode_inj {position position' : Child → Int} {n n' : Node} {f f' : TypeId → TypeId}
    (formed : n.WellFormed) (formed' : n'.WellFormed)
    (only : ∀ x, position (some x) ≠ position' none) (only' : ∀ x, position none ≠ position' (some x))
    (parts : ∀ x ∈ n.children, ∀ y ∈ n'.children, position (some x) = position' (some y) → f x = f' y)
    (same : ofNode position n = ofNode position' n') : n.mapTypes f = n'.mapTypes f' := by
  have part {c c' : Child} (inside : ∀ x, c = some x → x ∈ n.children) (inside' : ∀ y, c' = some y → y ∈ n'.children)
      (same : position c = position' c') : c.map f = c'.map f' := by
    cases c with
    | none =>
      cases c' with
      | none => rfl
      | some y => exact absurd same (only' y)
    | some x =>
      cases c' with
      | none => exact absurd same (only x)
      | some y => exact congrArg some (parts x (inside x rfl) y (inside' y rfl) same)
  have kinds : n.kindCode = n'.kindCode := by simpa using congrArg CompiledNode.kind same
  cases n with
  | odd => exact formed.elim
  | prim p =>
    cases n' with
    | odd => exact formed'.elim
    | prim q =>
      have codes := congrArg Prim.ofCode? kinds
      rw [Node.kindCode, Node.kindCode, Prim.ofCode?_code, Prim.ofCode?_code] at codes
      rw [Option.some.inj codes]
      rfl
    | _ => cases p <;> cases kinds
  | closure s =>
    cases n' with
    | odd => exact formed'.elim
    | prim q => cases q <;> cases kinds
    | closure s' =>
      have codes := congrArg (CodeKind.ofCode ∘ CompiledNode.code) same
      have args := congrArg CompiledNode.args same
      have rets := congrArg CompiledNode.ret same
      have protos := congrArg CompiledNode.proto same
      simp only [ofNode, Function.comp, CodeKind.ofCode_code formed.code, CodeKind.ofCode_code formed'.code]
        at codes args rets protos
      have given : s.args.map (·.map f) = s'.args.map (·.map f') := by
        refine map_eq_map_of (fun c member c' member' => part ?_ ?_) args
        · exact fun x here => by simp [Node.children, ← here, member]
        · exact fun x here => by simp [Node.children, ← here, member']
      have ret : s.ret.map f = s'.ret.map f' :=
        part (fun x here => by simp [Node.children, here]) (fun x here => by simp [Node.children, here]) rets
      have proto : s.proto.map f = s'.proto.map f' :=
        part (fun x here => by simp [Node.children, here]) (fun x here => by simp [Node.children, here]) protos
      rw [Node.mapTypes, Node.mapTypes, codes, given, ret, proto]
    | _ => cases kinds
  | object ps =>
    cases n' with
    | odd => exact formed'.elim
    | prim q => cases q <;> cases kinds
    | object ps' =>
      refine congrArg Node.object (map_eq_map_of (fun p member p' member' equal => ?_)
        (congrArg CompiledNode.props same))
      obtain ⟨ids, types, flags⟩ := CompiledProperty.mk.inj equal
      rw [ids, flags, part (fun x here => List.mem_filterMap.2 ⟨p, member, here⟩)
        (fun x here => List.mem_filterMap.2 ⟨p', member', here⟩) types]
    | _ => cases kinds
  | array e =>
    cases n' with
    | odd => exact formed'.elim
    | prim q => cases q <;> cases kinds
    | array e' =>
      exact congrArg Node.array (part (fun x here => by simp [Node.children, here])
        (fun x here => by simp [Node.children, here]) (congrArg CompiledNode.elem same))
    | _ => cases kinds
  | map e =>
    cases n' with
    | odd => exact formed'.elim
    | prim q => cases q <;> cases kinds
    | map e' =>
      exact congrArg Node.map (part (fun x here => by simp [Node.children, here])
        (fun x here => by simp [Node.children, here]) (congrArg CompiledNode.elem same))
    | _ => cases kinds

namespace Table

variable {t u : Table} {order order' : List TypeId} {ψ : TypeId → TypeId}

/-- The nodes that the names of a table refer to, directly or not, the primitive ones by their shared nodes. -/
def nodes (t : Table) : Set TypeId := {y | ∃ x, t.Reaches x ∧ t.graph.shared x = y}

def shape (t : Table) (y : TypeId) : Node := (t.graph.node y).mapTypes t.graph.shared

/-- A correspondence of the nodes of two tables: one to one, from the type of a name to the type of that name,
and with all that nodes hold, which is their kind and code, arguments, properties with ids and flags in order, and
all other types they refer to. -/
structure Corresponds (ψ : TypeId → TypeId) (t u : Table) : Prop where
  props : u.props = t.props
  names : ∀ name, name ∈ u.names ↔ name ∈ t.names
  types : ∀ name x y, (name, x) ∈ t.tags → (name, y) ∈ u.tags → ψ (t.graph.shared x) = u.graph.shared y
  bijective : Set.BijOn ψ t.nodes u.nodes
  shape : ∀ x ∈ t.nodes, u.shape (ψ x) = (t.shape x).mapTypes ψ

theorem Numbering.mem_iff (numbering : t.Numbering order) {y : TypeId} : y ∈ order ↔ y ∈ t.nodes :=
  numbering.complete y

theorem Reaches.shared {x : TypeId} (here : t.Reaches x) : t.graph.shared x ∈ t.nodes := ⟨x, here, rfl⟩

theorem Numbering.node_formed (numbering : t.Numbering order) (compilable : t.Compilable) {y : TypeId}
    (here : y ∈ t.nodes) : (t.graph.node y).WellFormed := by
  obtain ⟨x, reached, same⟩ := numbering.exists_node compilable.rooted (numbering.mem_iff.2 here)
  exact same ▸ compilable.formed x reached

/-- What a node of the table refers to stands for a node of the table. -/
theorem Compilable.shared_child (compilable : t.Compilable) {y z : TypeId} (here : y ∈ t.nodes)
    (part : z ∈ t.graph.children y) : t.graph.shared z ∈ t.nodes := by
  obtain ⟨x, reached, rfl⟩ := here
  rw [Graph.children, t.graph.node_shared compilable.rooted] at part
  exact (reached.child part).shared

theorem Ordered.type_unique (ordered : t.Ordered) {name : String} {x y : TypeId} (first : (name, x) ∈ t.tags)
    (second : (name, y) ∈ t.tags) : x = y := by
  have once : (t.tags.map Prod.fst).Nodup := by
    refine List.pairwise_map.2 (ordered.sorted.imp fun {a b} before same => ?_)
    rw [same] at before
    exact String.lt_irrefl b.1 before
  exact congrArg Prod.snd (List.inj_on_of_nodup_map once first second rfl)

/-- A node has a counterpart at the same position. -/
theorem Numbering.exists_counterpart (numbering : t.Numbering order) (numbering' : u.Numbering order')
    (same : t.compiledBy order = u.compiledBy order') {x : TypeId} (here : x ∈ t.nodes) :
    ∃ y ∈ u.nodes, order.idxOf x = order'.idxOf y ∧
      CompiledNode.ofNode (t.graph.positionOf order) (t.graph.node x) =
        CompiledNode.ofNode (u.graph.positionOf order') (u.graph.node y) := by
  have at_x := List.getElem?_idxOf (numbering.mem_iff.2 here)
  have listed := congrArg (fun w : CompiledTable => w.nodes[order.idxOf x]?) same
  simp only [compiledBy, List.getElem?_map, at_x, Option.map_some] at listed
  obtain ⟨y, at_y, equal⟩ := Option.map_eq_some_iff.1 listed.symm
  obtain ⟨bound, rfl⟩ := List.getElem?_eq_some_iff.1 at_y
  exact ⟨_, numbering'.mem_iff.1 (List.getElem_mem bound), (numbering'.once.idxOf_getElem _ bound).symm, equal.symm⟩

/-- Nodes at the same positions correspond. -/
theorem Numbering.corresponds (numbering : t.Numbering order) (numbering' : u.Numbering order')
    (left : t.Compilable) (right : u.Compilable) (same : t.compiledBy order = u.compiledBy order') :
    Corresponds (fun x => order'.getD (order.idxOf x) 0) t u := by
  have meets {x y : TypeId} (there : y ∈ u.nodes) (equal : order.idxOf x = order'.idxOf y) :
      order'.getD (order.idxOf x) 0 = y := by
    rw [equal, List.getD_eq_getElem?_getD, List.getElem?_idxOf (numbering'.mem_iff.2 there)]
    rfl
  have named : t.tags.map (fun entry => (⟨entry.1, t.graph.position order entry.2⟩ : CompiledName)) =
      u.tags.map fun entry => ⟨entry.1, u.graph.position order' entry.2⟩ := congrArg CompiledTable.names same
  refine ⟨?_, fun name => ?_, fun name x y first second => ?_, ⟨fun x here => ?_, fun x here x' here' equal => ?_,
    fun y there => ?_⟩, fun x here => ?_⟩
  · have texts : t.props.toList = u.props.toList := congrArg CompiledTable.props same
    exact congrArg NameTable.mk (Array.toList_inj.1 texts.symm)
  · have names := congrArg (List.map CompiledName.name) named
    simp only [List.map_map, Function.comp_def] at names
    exact Iff.of_eq (congrArg (name ∈ ·) names.symm)
  · have entry : (⟨name, t.graph.position order x⟩ : CompiledName) ∈
        u.tags.map fun entry => ⟨entry.1, u.graph.position order' entry.2⟩ :=
      named ▸ List.mem_map.2 ⟨(name, x), first, rfl⟩
    obtain ⟨⟨name', y'⟩, there, equal⟩ := List.mem_map.1 entry
    obtain ⟨rfl, positions⟩ := CompiledName.mk.inj equal
    obtain rfl := right.type_unique there second
    exact meets (Reaches.shared ⟨_, second, .refl⟩) (Int.ofNat.inj positions.symm)
  · obtain ⟨y, there, equal, _⟩ := numbering.exists_counterpart numbering' same here
    change order'.getD (order.idxOf x) 0 ∈ u.nodes
    rwa [meets there equal]
  · obtain ⟨y, there, equal', _⟩ := numbering.exists_counterpart numbering' same here
    obtain ⟨y', there', equal'', _⟩ := numbering.exists_counterpart numbering' same here'
    dsimp only at equal
    rw [meets there equal', meets there' equal''] at equal
    exact (List.idxOf_inj (numbering.mem_iff.2 here)).1 (by rw [equal', equal'', equal])
  · obtain ⟨x, here, equal, _⟩ := numbering'.exists_counterpart numbering same.symm there
    exact ⟨x, here, meets there equal.symm⟩
  · obtain ⟨y, there, equal, nodes⟩ := numbering.exists_counterpart numbering' same here
    rw [meets there equal, Table.shape, Table.shape, Node.mapTypes_mapTypes]
    have formed := numbering.node_formed left here
    have formed' := numbering'.node_formed right there
    refine (CompiledNode.ofNode_inj formed formed' ?_ ?_ ?_ nodes).symm
    · intro z absent
      cases absent
    · intro z absent
      cases absent
    · intro z _ z' part' positions
      exact meets (right.shared_child there part') (Int.ofNat.inj positions)

def sharing (t : Table) (f : TypeId → TypeId) (x : TypeId) : TypeId :=
  match t.graph.node x with
  | .prim p => p.typeId
  | _ => f x

structure Matched (ψ : TypeId → TypeId) (t u : Table) : Prop where
  props : u.props = t.props
  tags : u.tags.map (fun entry => (entry.1, u.graph.shared entry.2)) = t.tags.map fun entry => (entry.1, ψ entry.2)
  node : ∀ x, t.Reaches x → ∃ y, u.Reaches y ∧ u.graph.shared y = ψ x ∧
    (u.graph.node y).mapTypes u.graph.shared = (t.graph.node x).mapTypes ψ
  injective : ∀ x y, t.Reaches x → t.Reaches y → ψ x = ψ y → t.graph.shared x = t.graph.shared y

/-- What the other table's form is linked to is a copy of either table. -/
theorem Matched.isomorphic (matched : Matched ψ t u) (rooted : u.graph.Rooted) (numbering : u.Numbering order) :
    Isomorphic (t.sharing fun x => u.placed order (ψ x)) t (u.relinked order) := by
  obtain ⟨props, tags, node, injective⟩ := matched
  have copy := numbering.isomorphic
  have placed_shared := copy.apply_shared rooted
  have through (x : TypeId) (here : t.Reaches x) :
      t.sharing (fun x => u.placed order (ψ x)) x = u.placed order (ψ x) := by
    obtain ⟨y, there, same, shapes⟩ := node x here
    unfold sharing
    split
    · next p prim =>
      have prim' : u.graph.node y = .prim p := by
        rw [prim] at shapes
        exact Node.mapTypes_eq_prim_iff.1 shapes
      rw [← same, placed_shared, placed_of_prim prim']
    · rfl
  have nodes (x : TypeId) (here : t.Reaches x) :
      (u.relinked order).graph.node (t.sharing (fun x => u.placed order (ψ x)) x) =
        (t.graph.node x).mapTypes (t.sharing fun x => u.placed order (ψ x)) := by
    obtain ⟨y, there, same, shapes⟩ := node x here
    calc (u.relinked order).graph.node (t.sharing (fun x => u.placed order (ψ x)) x)
        = (u.relinked order).graph.node (u.placed order y) := by rw [through x here, ← same, placed_shared]
      _ = (u.graph.node y).mapTypes (u.placed order) := copy.node y there
      _ = ((u.graph.node y).mapTypes u.graph.shared).mapTypes (u.placed order) := by
        rw [Node.mapTypes_mapTypes]
        exact Node.mapTypes_congr fun z _ => (placed_shared z).symm
      _ = (t.graph.node x).mapTypes (fun z => u.placed order (ψ z)) := by rw [shapes, Node.mapTypes_mapTypes]
      _ = _ := Node.mapTypes_congr fun z part => (through z (here.child part)).symm
  have named : (u.relinked order).tags =
      t.tags.map fun entry => (entry.1, t.sharing (fun x => u.placed order (ψ x)) entry.2) := by
    calc u.tags.map (fun entry => (entry.1, u.placed order entry.2))
        = (u.tags.map fun entry => (entry.1, u.graph.shared entry.2)).map
            fun entry => (entry.1, u.placed order entry.2) := by
          simp only [List.map_map, Function.comp_def, placed_shared]
      _ = t.tags.map fun entry => (entry.1, u.placed order (ψ entry.2)) := by
          rw [tags, List.map_map]
          rfl
      _ = _ := List.map_congr_left fun entry member => by rw [through _ ⟨entry, member, .refl⟩]
  refine ⟨props, named, nodes, fun x p prim => by simp [sharing, prim], fun x x' here here' equal => ?_,
    fun y => onto_of_node named nodes⟩
  rw [through x here, through x' here'] at equal
  obtain ⟨y, there, same, _⟩ := node x here
  obtain ⟨y', there', same', _⟩ := node x' here'
  rw [← same, ← same', placed_shared, placed_shared] at equal
  exact injective x x' here here' (by rw [← same, ← same', copy.injective y y' there there' equal])

theorem Matched.compile_eq (matched : Matched ψ t u) (left : t.Compilable) (right : u.Compilable) :
    u.compile = t.compile := by
  obtain ⟨order, numbering, _⟩ := right.compile
  have rooted : (u.relinked order).graph.Rooted := Graph.extended_rooted _
  rw [← numbering.isomorphic.compile_eq right.rooted rooted right.formed,
    (matched.isomorphic right.rooted numbering).compile_eq left.rooted rooted left.formed]

/-- Lists of names in order are equal if they hold the same. -/
theorem tags_ext {tags tags' : List (String × TypeId)} (sorted : tags.Pairwise (·.1 < ·.1))
    (sorted' : tags'.Pairwise (·.1 < ·.1)) (same : ∀ entry, entry ∈ tags ↔ entry ∈ tags') : tags = tags' := by
  have irrefl : Std.Irrefl fun a b : String × TypeId => a.1 < b.1 := ⟨fun a => String.lt_irrefl a.1⟩
  have antisymm : Std.Antisymm fun a b : String × TypeId => a.1 < b.1 :=
    ⟨fun a b before after => absurd after (String.lt_asymm before)⟩
  exact sorted.eq_of_mem_iff sorted' same

theorem sorted_map {tags : List (String × TypeId)} (sorted : tags.Pairwise (·.1 < ·.1)) (f : TypeId → TypeId) :
    (tags.map fun entry => (entry.1, f entry.2)).Pairwise (·.1 < ·.1) :=
  List.pairwise_map.2 sorted

theorem Corresponds.matched (corresponds : Corresponds ψ t u) (left : t.Ordered) (right : u.Ordered) :
    Matched (fun x => ψ (t.graph.shared x)) t u := by
  refine ⟨corresponds.props, ?_, ?_, ?_⟩
  · refine tags_ext (sorted_map right.sorted _) (sorted_map left.sorted fun x => ψ (t.graph.shared x)) fun entry => ?_
    simp only [List.mem_map]
    constructor
    · rintro ⟨⟨name, y⟩, there, rfl⟩
      obtain ⟨⟨_, x⟩, here, rfl⟩ := List.mem_map.1 ((corresponds.names name).1 (List.mem_map.2 ⟨_, there, rfl⟩))
      exact ⟨_, here, by rw [corresponds.types _ x y here there]⟩
    · rintro ⟨⟨name, x⟩, here, rfl⟩
      obtain ⟨⟨_, y⟩, there, rfl⟩ := List.mem_map.1 ((corresponds.names name).2 (List.mem_map.2 ⟨_, here, rfl⟩))
      exact ⟨_, there, by rw [corresponds.types _ x y here there]⟩
  · intro x here
    obtain ⟨y, there, same⟩ := corresponds.bijective.mapsTo here.shared
    refine ⟨y, there, same, ?_⟩
    have shapes := corresponds.shape _ here.shared
    rwa [← same, Table.shape, Table.shape, u.graph.node_shared right.rooted, t.graph.node_shared left.rooted,
      Node.mapTypes_mapTypes] at shapes
  · intro x y here there equal
    exact corresponds.bijective.injOn here.shared there.shared equal

theorem insertTag_perm (name : String) (type : TypeId) (tags : List (String × TypeId)) :
    (insertTag name type tags).Perm ((name, type) :: tags) := by
  induction tags with
  | nil => rfl
  | cons head tags ih =>
    unfold insertTag
    split_ifs
    · rfl
    · exact (ih.cons head).trans (.swap ..)

theorem defineAll_perm {entries : List (String × TypeId)} (defined : t.defineAll entries = .ok u) :
    u.tags.Perm (entries ++ t.tags) := by
  induction entries generalizing t with
  | nil =>
    cases defined
    rfl
  | cons entry entries ih =>
    obtain ⟨next, first, rest⟩ := bind_eq_ok_iff.1 defined
    obtain ⟨_, _, _, type, same, rfl⟩ := define_eq_ok_iff.1 first
    cases same
    exact (ih rest).trans (((insertTag_perm ..).append_left entries).trans List.perm_middle)

theorem Reaches.renamed {σ : TypeId → TypeId} (tags : u.tags = t.tags.map fun entry => (entry.1, σ entry.2))
    (node : ∀ x, t.Reaches x → u.graph.node (σ x) = (t.graph.node x).mapTypes σ) {x : TypeId} (here : t.Reaches x) :
    u.Reaches (σ x) := by
  obtain ⟨entry, member, path⟩ := here
  induction path with
  | refl =>
    have entry' : (entry.1, σ entry.2) ∈ u.tags := tags ▸ List.mem_map_of_mem member
    exact ⟨_, entry', .refl⟩
  | @tail y z path edge ih =>
    refine ih.child ?_
    rw [Graph.children, node y ⟨entry, member, path⟩, Node.children_mapTypes]
    exact List.mem_map_of_mem edge

/-- The compiled form does not depend on the order in which types were named, nor on where their nodes are. -/
theorem compile_eq_of_renamed {base base' : Table} {entries entries' : List (String × TypeId)} {σ : TypeId → TypeId}
    (left : t.Compilable) (right : u.Compilable) (defined : base.defineAll entries = .ok t)
    (defined' : base'.defineAll entries' = .ok u) (props : base'.props = base.props)
    (same : (entries' ++ base'.tags).Perm ((entries ++ base.tags).map fun entry => (entry.1, σ entry.2)))
    (node : ∀ x, t.Reaches x → u.graph.node (σ x) = (t.graph.node x).mapTypes σ)
    (injective : ∀ x y, t.Reaches x → t.Reaches y → σ x = σ y → x = y) : u.compile = t.compile := by
  have tags : u.tags = t.tags.map fun entry => (entry.1, σ entry.2) := by
    refine tags_ext right.sorted (sorted_map left.sorted σ) fun entry => ?_
    exact ((defineAll_perm defined').trans (same.trans ((defineAll_perm defined).symm.map _))).mem_iff
  have prim {x : TypeId} (here : t.Reaches x) {p : Prim} : u.graph.node (σ x) = .prim p ↔ t.graph.node x = .prim p := by
    rw [node x here, Node.mapTypes_eq_prim_iff]
  refine Matched.compile_eq (ψ := fun x => u.graph.shared (σ x)) ⟨?_, ?_, fun x here => ?_, ?_⟩ left right
  · rw [(defineAll_eq_ok defined).1, (defineAll_eq_ok defined').1, props]
  · rw [tags, List.map_map]
    rfl
  · exact ⟨σ x, here.renamed tags node, rfl, by rw [node x here, Node.mapTypes_mapTypes]⟩
  · intro x y here there equal
    by_cases primitive : ∃ p, t.graph.node x = .prim p
    · obtain ⟨p, prim_x⟩ := primitive
      have prim_y : t.graph.node y = .prim p := by
        rw [← prim there, ← u.graph.node_shared right.rooted, ← equal, u.graph.node_shared right.rooted, prim here,
          prim_x]
      rw [Graph.shared_of_prim prim_x, Graph.shared_of_prim prim_y]
    · have other (p : Prim) : u.graph.node (σ x) ≠ .prim p := fun h => primitive ⟨p, (prim here).1 h⟩
      have other' (p : Prim) : u.graph.node (σ y) ≠ .prim p := by
        rw [← u.graph.node_shared right.rooted, ← equal, u.graph.node_shared right.rooted]
        exact other p
      rw [Graph.shared_of_not_prim other, Graph.shared_of_not_prim other'] at equal
      rw [injective x y here there equal]

/-- The compiled form is canonical. Tables whose types have all their parts and only properties of their table have
compiled forms, and the forms are the same exactly if the tables correspond; so are the bytes, unless something is
longer than its head can tell. In particular nothing depends on the order in which types were named, or on the ids
that their nodes have got. -/
theorem encode_eq_iff (left : t.Compilable) (right : u.Compilable) :
    ∃ w w', (t.compile = .ok w ∧ t.encode = .ok w.bytes) ∧ (u.compile = .ok w' ∧ u.encode = .ok w'.bytes) ∧
      (w = w' ↔ ∃ ψ, Corresponds ψ t u) ∧
      (w.Countable → w'.Countable → (w.bytes = w'.bytes ↔ ∃ ψ, Corresponds ψ t u)) ∧
      ∀ (base base' : Table) (entries entries' : List (String × TypeId)) (σ : TypeId → TypeId),
        base.defineAll entries = .ok t → base'.defineAll entries' = .ok u → base'.props = base.props →
        (entries' ++ base'.tags).Perm ((entries ++ base.tags).map fun entry => (entry.1, σ entry.2)) →
        (∀ x, t.Reaches x → u.graph.node (σ x) = (t.graph.node x).mapTypes σ) →
        (∀ x y, t.Reaches x → t.Reaches y → σ x = σ y → x = y) → w.bytes = w'.bytes := by
  obtain ⟨order, numbering, compiled⟩ := left.compile
  obtain ⟨order', numbering', compiled'⟩ := right.compile
  have forms : t.compiledBy order = u.compiledBy order' ↔ ∃ ψ, Corresponds ψ t u := by
    refine ⟨fun same => ⟨_, numbering.corresponds numbering' left right same⟩, fun ⟨ψ, corresponds⟩ => ?_⟩
    have matched := corresponds.matched left.toOrdered right.toOrdered
    exact Except.ok.inj (compiled.symm.trans ((matched.compile_eq left right).symm.trans compiled'))
  refine ⟨_, _, ⟨compiled, by rw [encode, compiled]; rfl⟩, ⟨compiled', by rw [encode, compiled']; rfl⟩, forms,
    fun countable countable' => ?_, ?_⟩
  · rw [← forms]
    exact ⟨numbering.bytes_inj numbering' left right countable countable', congrArg CompiledTable.bytes⟩
  · intro base base' entries entries' σ defined defined' props same node injective
    have renamed := compile_eq_of_renamed left right defined defined' props same node injective
    rw [Except.ok.inj (compiled.symm.trans (renamed.symm.trans compiled'))]

/-- The lists once more, with the constructor first and the shared node for numbers. -/
def relisted : Table where
  props := ⟨#["head", "tail"]⟩
  graph := .extended [.closure ⟨.constructor, [some 7, some 0], some 7, some 7⟩,
    .object [⟨0, some 0, false⟩, ⟨1, some 7, true⟩]]
  tags := [("List", 7), ("Make", 6)]

theorem relisted_compilable : relisted.Compilable := by
  have typed : relisted.Typed := by
    refine typed_of_holds (fun x inside => TypeStore.holds_extended ?_ inside) (by decide)
    simp only [List.forall_mem_cons]
    refine ⟨?_, ?_, by simp⟩
    · exact TypeStore.holds_closure (.inr (.inr rfl)) (by decide) ⟨7, rfl, by decide⟩ (by decide) ⟨7, rfl, by decide⟩
    · exact TypeStore.holds_object (by decide) (by decide)
  have ordered : relisted.Ordered := ⟨Graph.extended_rooted _, lists_built.ordered.distinct, by decide, by decide⟩
  exact ⟨ordered, typed.formed, typed.inside⟩

theorem encode_eq_iff_lists : lists.Compilable ∧ relisted.Compilable ∧ ∃ w, lists.compile = .ok w ∧ w.Countable ∧
    (∃ ψ, Corresponds ψ lists relisted) ∧ lists.encode = .ok w.bytes ∧ relisted.encode = .ok w.bytes := by
  have left : lists.Compilable := lists_sound.compilable
  obtain ⟨w, w', ⟨compiled, encoded⟩, ⟨compiled', encoded'⟩, forms, bytes, _⟩ := encode_eq_iff left relisted_compilable
  have here : lists.compile = .ok ⟨1, ["head", "tail"], [⟨"List", 0⟩, ⟨"Make", 2⟩],
      [⟨8, 0, [], -1, -1, [⟨0, 1, false⟩, ⟨1, 0, true⟩], -1⟩, ⟨1, 0, [], -1, -1, [], -1⟩,
        ⟨7, 3, [0, 1], 0, 0, [], -1⟩]⟩ := by decide
  have there : relisted.compile = lists.compile := by decide
  obtain rfl := Except.ok.inj (here.symm.trans compiled)
  obtain rfl := Except.ok.inj (here.symm.trans (there.symm.trans compiled'))
  have countable : CompiledTable.Countable ⟨1, ["head", "tail"], [⟨"List", 0⟩, ⟨"Make", 2⟩],
      [⟨8, 0, [], -1, -1, [⟨0, 1, false⟩, ⟨1, 0, true⟩], -1⟩, ⟨1, 0, [], -1, -1, [], -1⟩,
        ⟨7, 3, [0, 1], 0, 0, [], -1⟩]⟩ := by
    refine ⟨by decide, by decide, by decide, by decide, by decide, ?_⟩
    simp only [Bytes.ofString_eq]
    decide
  exact ⟨left, relisted_compilable, _, compiled, countable, (bytes countable countable).1 rfl, encoded, encoded'⟩

end Table

end Gradual
