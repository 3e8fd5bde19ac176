import Gradual.Proofs.Table.Building

/-!
Linking a compiled form. What linking accepts is a sound table; the compiled form of a sound table links
back to a table that is isomorphic to it.
-/
namespace Gradual

theorem Prim.ofCode?_code (p : Prim) : Prim.ofCode? p.code = some p := by
  cases p <;> rfl

theorem CodeKind.ofCode_code {k : CodeKind} (known : k = .function ∨ k = .method ∨ k = .constructor) :
    CodeKind.ofCode k.code = k := by
  rcases known with rfl | rfl | rfl <;> rfl

namespace CompiledNode

variable {position : Child → Int} {n : Node}

@[simp] theorem ofNode_kind : (ofNode position n).kind = n.kindCode := by
  cases n <;> rfl

theorem ofNode_props :
    (ofNode position n).props = n.props.map fun p => ⟨p.id, position p.type, p.readOnly⟩ := by
  cases n <;> rfl

end CompiledNode

namespace CompiledTable

variable {w : CompiledTable} {i : Nat}

/-- A type at a position: a shared primitive node, or a node of its own after these. -/
theorem lt_of_resolve {source target : Int} {role : String} {t : TypeId} (h : w.resolve source role target = .ok t) :
    t < Graph.primitives.size + w.nodes.length := by
  unfold resolve at h
  split_ifs at h
  split at h
  · next n found =>
    have inside : target.toNat < w.nodes.length := (List.getElem?_eq_some_iff.1 found).1
    obtain rfl : n.typeId target.toNat = t := Except.ok.inj h
    unfold CompiledNode.typeId
    split
    · next p _ => exact Nat.lt_add_right _ (by cases p <;> decide)
    · exact Nat.add_lt_add_left inside _
  · cases h

theorem forall_of_linkArgs {args : List Int} {cs : List Child} (h : w.linkArgs i args = .ok cs) :
    ∀ c ∈ cs, ∃ t, c = some t ∧ t < Graph.primitives.size + w.nodes.length := by
  induction args generalizing cs with
  | nil => cases h; simp
  | cons a args ih =>
    obtain ⟨t, first, h⟩ := bind_eq_ok_iff.1 h
    obtain ⟨ts, rest, h⟩ := bind_eq_ok_iff.1 h
    cases h
    exact List.forall_mem_cons.2 ⟨⟨t, rfl, lt_of_resolve first⟩, ih rest⟩

theorem of_linkProperties {seen : List PropId} {members : List CompiledProperty} {ps : List Property}
    (h : w.linkProperties i seen members = .ok ps) :
    (ps.map (·.id)).Nodup ∧ (∀ p ∈ ps, p.id ∉ seen) ∧ ∀ p ∈ ps, p.id < w.props.length ∧
      ∃ t, p.type = some t ∧ t < Graph.primitives.size + w.nodes.length := by
  induction members generalizing seen ps with
  | nil => cases h; simp
  | cons p members ih =>
    unfold linkProperties at h
    split_ifs at h with bad
    · cases h
    obtain ⟨t, first, h⟩ := bind_eq_ok_iff.1 h
    obtain ⟨rest, tail, h⟩ := bind_eq_ok_iff.1 h
    cases h
    obtain ⟨once, unseen, each⟩ := ih tail
    rw [not_or, Nat.not_le] at bad
    refine ⟨List.nodup_cons.2 ⟨fun member => ?_, once⟩, List.forall_mem_cons.2 ⟨bad.2, fun q member => ?_⟩,
      List.forall_mem_cons.2 ⟨⟨bad.1, t, rfl, lt_of_resolve first⟩, each⟩⟩
    · obtain ⟨q, inside, same⟩ := List.mem_map.1 member
      exact unseen q inside (same ▸ List.mem_cons_self)
    · exact fun old => unseen q member (List.mem_cons_of_mem _ old)

end CompiledTable

namespace CompiledTable

variable {w : CompiledTable} {i : Nat} {s : TypeStore}

theorem linkClosure_eq_ok_iff {n : CompiledNode} {node : Node} : w.linkClosure i n = .ok node ↔
    ∃ args ret proto, node = .closure ⟨CodeKind.ofCode n.code, args, some ret, proto⟩ ∧
      CodeKind.ofCode n.code ≠ .other n.code ∧ w.linkArgs i n.args = .ok args ∧
      w.resolve i "return" n.ret = .ok ret ∧ (CodeKind.ofCode n.code ≠ .function → args ≠ []) ∧
      if CodeKind.ofCode n.code = .constructor then ∃ q, proto = some q ∧ w.resolve i "prototype" n.proto = .ok q
      else proto = none := by
  have finish (args : List Child) (ret : TypeId) (proto : Child) :
      (if CodeKind.ofCode n.code ≠ .function ∧ args = [] then do
        throw (TableError.missingReceiver i (CodeKind.ofCode n.code))
        pure (Node.closure ⟨CodeKind.ofCode n.code, args, some ret, proto⟩)
      else pure (Node.closure ⟨CodeKind.ofCode n.code, args, some ret, proto⟩) : Except TableError Node) = .ok node ↔
      node = .closure ⟨CodeKind.ofCode n.code, args, some ret, proto⟩ ∧
        (CodeKind.ofCode n.code ≠ .function → args ≠ []) := by
    split_ifs with receiver
    · exact ⟨nofun, fun h => absurd receiver.2 (h.2 receiver.1)⟩
    · exact ⟨fun h => ⟨(Except.ok.inj h).symm, fun other empty => receiver ⟨other, empty⟩⟩, fun h => h.1 ▸ rfl⟩
  unfold linkClosure
  simp only
  by_cases bad : CodeKind.ofCode n.code = .other n.code
  · rw [if_pos bad]
    exact ⟨nofun, fun ⟨_, _, _, _, known, _⟩ => absurd bad known⟩
  rw [if_neg bad, bind_eq_ok_iff]
  by_cases ctor : CodeKind.ofCode n.code = .constructor
  · simp only [if_pos ctor, bind_eq_ok_iff, map_eq_pure_bind, bind_assoc, pure_bind, finish]
    constructor
    · rintro ⟨args, given, ret, result, q, found, rfl, receiver⟩
      exact ⟨args, ret, some q, rfl, bad, given, result, receiver, q, rfl, found⟩
    · rintro ⟨args, ret, _, rfl, _, given, result, receiver, q, rfl, found⟩
      exact ⟨args, given, ret, result, q, found, rfl, receiver⟩
  · simp only [if_neg ctor, bind_eq_ok_iff, pure_bind, finish]
    constructor
    · rintro ⟨args, given, ret, result, rfl, receiver⟩
      exact ⟨args, ret, none, rfl, bad, given, result, receiver, rfl⟩
    · rintro ⟨args, ret, _, rfl, _, given, result, receiver, rfl⟩
      exact ⟨args, given, ret, result, rfl, receiver⟩

theorem CodeKind.known_of_ne_other {k : Nat} (h : CodeKind.ofCode k ≠ .other k) :
    CodeKind.ofCode k = .function ∨ CodeKind.ofCode k = .method ∨ CodeKind.ofCode k = .constructor := by
  unfold CodeKind.ofCode at h ⊢
  split <;> simp_all

/-- A node that is linked has all its parts in a store of that size. -/
theorem holds_of_linkNode {n : CompiledNode} {node : Node} (names : s.names.size = w.props.length)
    (size : s.graph.size = Graph.primitives.size + w.nodes.length)
    (kind : (Prim.ofCode? n.kind).isSome ∨ (7 ≤ n.kind ∧ n.kind ≤ 10)) (h : w.linkNode i n = .ok node) :
    s.Holds node := by
  have part {source target : Int} {role : String} {t : TypeId} (h : w.resolve source role target = .ok t) :
      s.Part (some t) := ⟨t, rfl, size ▸ lt_of_resolve h⟩
  unfold linkNode at h
  split at h
  · cases h
    exact s.holds_prim _
  next primitive =>
  rw [primitive] at kind
  split at h
  · obtain ⟨args, ret, proto, rfl, known, given, result, receiver, prototype⟩ := linkClosure_eq_ok_iff.1 h
    refine TypeStore.holds_closure (CodeKind.known_of_ne_other known) ?_ (part result) receiver ?_
    · intro a member
      obtain ⟨t, rfl, inside⟩ := forall_of_linkArgs given a member
      exact ⟨t, rfl, size ▸ inside⟩
    · split_ifs at prototype ⊢
      · obtain ⟨q, rfl, found⟩ := prototype
        exact part found
      · exact prototype
  · rw [← bind_pure_comp] at h
    obtain ⟨ps, members, h⟩ := bind_eq_ok_iff.1 h
    cases h
    obtain ⟨once, _, each⟩ := of_linkProperties members
    refine TypeStore.holds_object once fun p member => ?_
    obtain ⟨issued, t, type, inside⟩ := each p member
    exact ⟨names ▸ issued, t, type, size ▸ inside⟩
  · obtain ⟨t, found, h⟩ := bind_eq_ok_iff.1 h
    cases h
    exact (TypeStore.holds_element (part found)).1
  · obtain ⟨t, found, h⟩ := bind_eq_ok_iff.1 h
    cases h
    exact (TypeStore.holds_element (part found)).2
  · next seven eight nine ten =>
    simp only [Option.isSome_none, Bool.false_eq_true, false_or] at kind
    simp only [imp_false] at seven eight nine ten
    omega

theorem of_linkNodes {ns : List CompiledNode} {nodes : List Node} (h : w.linkNodes i ns = .ok nodes) :
    nodes.length = ns.length ∧ ∀ node ∈ nodes, ∃ j, ∃ n ∈ ns, w.linkNode j n = .ok node := by
  induction ns generalizing i nodes with
  | nil => cases h; simp
  | cons n ns ih =>
    obtain ⟨node, first, h⟩ := bind_eq_ok_iff.1 h
    obtain ⟨rest, tail, h⟩ := bind_eq_ok_iff.1 h
    cases h
    obtain ⟨length, each⟩ := ih tail
    refine ⟨by simp [length], List.forall_mem_cons.2 ⟨⟨i, n, List.mem_cons_self, first⟩, fun m member => ?_⟩⟩
    obtain ⟨j, k, inside, linked⟩ := each m member
    exact ⟨j, k, List.mem_cons_of_mem _ inside, linked⟩

theorem of_checkKinds {ns : List CompiledNode} (h : checkKinds i ns = .ok ()) :
    ∀ n ∈ ns, (Prim.ofCode? n.kind).isSome ∨ (7 ≤ n.kind ∧ n.kind ≤ 10) := by
  induction ns generalizing i with
  | nil => simp
  | cons n ns ih =>
    unfold checkKinds at h
    split_ifs at h with kind
    exact List.forall_mem_cons.2 ⟨kind, ih h⟩

theorem of_linkNames {names : List CompiledName} {t u : Table} (ordered : t.Ordered)
    (roots : ∀ entry ∈ t.tags, entry.2 < Graph.primitives.size + w.nodes.length) (h : w.linkNames t names = .ok u) :
    u.Ordered ∧ u.props = t.props ∧ u.graph = t.graph ∧
      ∀ entry ∈ u.tags, entry.2 < Graph.primitives.size + w.nodes.length := by
  induction names generalizing t with
  | nil => cases h; exact ⟨ordered, rfl, rfl, roots⟩
  | cons n names ih =>
    obtain ⟨type, found, h⟩ := bind_eq_ok_iff.1 h
    obtain ⟨next, named, h⟩ := bind_eq_ok_iff.1 h
    have ordered' := ordered.define named
    obtain ⟨_, _, _, _, same, rfl⟩ := Table.define_eq_ok_iff.1 named
    cases same
    refine ih (t := { t with tags := Table.insertTag n.name type t.tags }) ordered' (fun entry member => ?_) h
    obtain rfl | old := Table.mem_insertTag.1 member
    · exact lt_of_resolve found
    · exact roots entry old

end CompiledTable

namespace Graph

def extended (nodes : List Node) : Graph := ⟨primitives.nodes ++ nodes.toArray⟩

theorem size_extended (nodes : List Node) : (extended nodes).size = primitives.size + nodes.length := by
  simp [extended, size]

theorem node_extended_of_lt {nodes : List Node} {t : TypeId} (inside : t < primitives.size) :
    (extended nodes).node t = primitives.node t := by
  have bound : t < primitives.nodes.size := inside
  simp [extended, node, Array.getD_eq_getD_getElem?, Array.getElem?_append_left bound]

theorem node_extended {nodes : List Node} {i : Nat} {n : Node} (here : nodes[i]? = some n) :
    (extended nodes).node (primitives.size + i) = n := by
  have past : primitives.nodes.size ≤ primitives.size + i := Nat.le_add_right _ _
  rw [extended, node, Array.getD_eq_getD_getElem?, Array.getElem?_append_right past]
  simp [size, here]

theorem extended_rooted (nodes : List Node) : (extended nodes).Rooted := by
  intro p
  rw [node_extended_of_lt (by cases p <;> decide), primitives_rooted p]

end Graph

/-- The primitive nodes hold in any store, so only the others have to be looked at. -/
theorem TypeStore.holds_extended {s : TypeStore} {nodes : List Node} (each : ∀ n ∈ nodes, s.Holds n) {t : TypeId}
    (inside : t < (Graph.extended nodes).size) : s.Holds ((Graph.extended nodes).node t) := by
  by_cases old : t < Graph.primitives.size
  · rw [Graph.node_extended_of_lt old]
    exact s.holds_of_primitive old
  · obtain ⟨i, rfl⟩ := Nat.exists_eq_add_of_le (Nat.le_of_not_lt old)
    have bound : i < nodes.length := Nat.lt_of_add_lt_add_left (inside.trans_eq (Graph.size_extended nodes))
    rw [Graph.node_extended (List.getElem?_eq_getElem bound)]
    exact each _ (List.getElem_mem bound)

namespace CompiledTable

variable {w : CompiledTable}

theorem link_eq_ok_iff {t : Table} : w.link = .ok t ↔
    w.version = Table.compiledVersion ∧ checkKinds 0 w.nodes = .ok () ∧
      (NameTable.ofList w.props).size = w.props.length ∧ ∃ nodes, w.linkNodes 0 w.nodes = .ok nodes ∧
        w.linkNames ⟨NameTable.ofList w.props, .extended nodes, []⟩ w.names = .ok t := by
  constructor
  · intro h
    unfold link at h
    split_ifs at h with version
    · cases h
    obtain ⟨⟨⟩, kinds, h⟩ := bind_eq_ok_iff.1 h
    simp only at h
    split_ifs at h with distinct
    · cases h
    obtain ⟨nodes, linked, h⟩ := bind_eq_ok_iff.1 h
    exact ⟨not_not.1 version, kinds, not_not.1 distinct, nodes, linked, h⟩
  · rintro ⟨version, kinds, distinct, nodes, linked, named⟩
    rw [link, if_neg (not_not.2 version)]
    refine bind_eq_ok_iff.2 ⟨(), kinds, ?_⟩
    simp only [if_neg (not_not.2 distinct)]
    exact bind_eq_ok_iff.2 ⟨nodes, linked, named⟩

/-- Every node of a linked table has its parts in the table, and every name stands for a node. -/
theorem link_holds {t : Table} (h : w.link = .ok t) :
    t.Ordered ∧ (∀ x < t.graph.size, TypeStore.Holds ⟨t.graph, t.props⟩ (t.graph.node x)) ∧
      ∀ entry ∈ t.tags, entry.2 < t.graph.size := by
  obtain ⟨_, kinds, names, nodes, linked, h⟩ := link_eq_ok_iff.1 h
  obtain ⟨length, each⟩ := of_linkNodes linked
  have size : (Graph.extended nodes).size = Graph.primitives.size + w.nodes.length := by
    rw [Graph.size_extended, length]
  obtain ⟨ordered, props, graph, roots⟩ := of_linkNames
    ⟨Graph.extended_rooted nodes, NameTable.ofList_distinct _, .nil, by simp⟩ (by simp) h
  refine ⟨ordered, fun x inside => ?_, fun entry member => ?_⟩
  · rw [props, graph]
    rw [graph] at inside
    refine TypeStore.holds_extended (fun node linked => ?_) inside
    obtain ⟨i, n, member, node⟩ := each node linked
    exact holds_of_linkNode names size (of_checkKinds kinds n member) node
  · rw [graph]
    exact (roots entry member).trans_eq size.symm

/-- Whatever links is a sound table. -/
theorem link_sound {t : Table} (h : w.link = .ok t) : t.Sound := by
  obtain ⟨ordered, holds, roots⟩ := link_holds h
  exact ⟨ordered, Table.typed_of_holds holds roots⟩

end CompiledTable

namespace Table

variable {t : Table} {order : List TypeId} {x : TypeId}

/-- Where linking puts a type: a primitive type at its shared node, another one at its number. -/
def placed (t : Table) (order : List TypeId) (x : TypeId) : TypeId :=
  match t.graph.node x with
  | .prim p => p.typeId
  | _ => Graph.primitives.size + order.idxOf x

/-- A numbering of the types of a table: each of their shared nodes once. -/
structure Numbering (t : Table) (order : List TypeId) : Prop where
  once : order.Nodup
  complete : ∀ y, y ∈ order ↔ ∃ x, t.Reaches x ∧ t.graph.shared x = y

theorem positionOf_some (g : Graph) (order : List TypeId) (x : TypeId) :
    g.positionOf order (some x) = g.position order x := rfl

theorem Numbering.resolve (numbering : t.Numbering order) (sound : t.Sound) (here : t.Reaches x) (source : Int)
    (role : String) :
    (t.compiledBy order).resolve source role (t.graph.position order x) = .ok (t.placed order x) := by
  have member : t.graph.shared x ∈ order := (numbering.complete _).2 ⟨x, here, rfl⟩
  have found : (t.compiledBy order).nodes[order.idxOf (t.graph.shared x)]? =
      some (CompiledNode.ofNode (t.graph.positionOf order) (t.graph.node x)) := by
    have at' : order[order.idxOf (t.graph.shared x)]? = some (t.graph.shared x) :=
      List.getElem?_idxOf member
    simp [compiledBy, at', t.graph.node_shared sound.rooted]
  have sign : ¬ t.graph.position order x < 0 := by simp [Graph.position]
  have target : (t.graph.position order x).toNat = order.idxOf (t.graph.shared x) := rfl
  rw [CompiledTable.resolve, if_neg sign, target, found]
  have formed := sound.formed x here
  simp only [CompiledNode.typeId, CompiledNode.ofNode_kind, placed]
  cases shape : t.graph.node x with
  | prim p => simp [Node.kindCode, Prim.ofCode?_code]
  | odd => exact (shape ▸ formed : (Node.odd _).WellFormed).elim
  | _ =>
    have self : t.graph.shared x = x := Graph.shared_of_not_prim fun p prim => by simp [shape] at prim
    simp [Node.kindCode, Prim.ofCode?, self]

theorem Numbering.linkArgs (numbering : t.Numbering order) (sound : t.Sound) {args : List Child}
    (each : ∀ a ∈ args, ∃ x, a = some x ∧ t.Reaches x) (i : Nat) :
    (t.compiledBy order).linkArgs i (args.map (t.graph.positionOf order)) = .ok (args.map (·.map (t.placed order))) := by
  induction args with
  | nil => rfl
  | cons a args ih =>
    obtain ⟨⟨x, rfl, here⟩, rest⟩ := List.forall_mem_cons.1 each
    have first := numbering.resolve sound here i "argument"
    simp only [List.map_cons, positionOf_some, CompiledTable.linkArgs, first, ih rest]
    rfl

theorem Numbering.linkProperties (numbering : t.Numbering order) (sound : t.Sound) {ps : List Property}
    (each : ∀ p ∈ ps, p.id < t.props.size ∧ ∃ x, p.type = some x ∧ t.Reaches x) (once : (ps.map (·.id)).Nodup)
    {seen : List PropId} (unseen : ∀ p ∈ ps, p.id ∉ seen) (i : Nat) :
    (t.compiledBy order).linkProperties i seen (ps.map fun p => ⟨p.id, t.graph.positionOf order p.type, p.readOnly⟩) =
      .ok (ps.map fun p => ⟨p.id, p.type.map (t.placed order), p.readOnly⟩) := by
  induction ps generalizing seen with
  | nil => rfl
  | cons p ps ih =>
    obtain ⟨⟨issued, x, type, here⟩, rest⟩ := List.forall_mem_cons.1 each
    obtain ⟨fresh, once⟩ := List.nodup_cons.1 once
    obtain ⟨new, unseen⟩ := List.forall_mem_cons.1 unseen
    have good : ¬ ((t.compiledBy order).props.length ≤ p.id ∨ p.id ∈ seen) := by
      have : (t.compiledBy order).props.length = t.props.size := rfl
      rw [this]
      exact fun bad => bad.elim (Nat.not_le.2 issued) new
    have first := numbering.resolve sound here i "property"
    have others : ∀ q ∈ ps, q.id ∉ p.id :: seen := fun q member => by
      rw [List.mem_cons, not_or]
      exact ⟨fun same => fresh (List.mem_map.2 ⟨q, member, same⟩), unseen q member⟩
    have tail := ih rest once others
    simp only [List.map_cons, CompiledTable.linkProperties, if_neg good, type, positionOf_some, first, tail]
    rfl

/-- A node of the table links to itself, with its parts where linking puts them. -/
theorem Numbering.linkNode (numbering : t.Numbering order) (sound : t.Sound) (here : t.Reaches x) (i : Nat) :
    (t.compiledBy order).linkNode i (CompiledNode.ofNode (t.graph.positionOf order) (t.graph.node x)) =
      .ok ((t.graph.node x).mapTypes (t.placed order)) := by
  have formed := sound.formed x here
  have reached {y : TypeId} (edge : y ∈ (t.graph.node x).children) : t.Reaches y := here.child edge
  have proto := fun sig => sound.proto x sig here
  have inside := sound.inside x here
  generalize t.graph.node x = n at formed reached proto inside
  have part {c : Child} (some : c.isSome) (edge : ∀ y, c = .some y → y ∈ n.children) :
      ∃ y, c = .some y ∧ t.Reaches y := by
    obtain ⟨y, rfl⟩ := Option.isSome_iff_exists.1 some
    exact ⟨y, rfl, reached (edge y rfl)⟩
  simp only [CompiledTable.linkNode, CompiledNode.ofNode_kind]
  cases n with
  | odd => exact formed.elim
  | prim p => simp [Node.kindCode, Prim.ofCode?_code, Node.mapTypes]
  | closure sig =>
    obtain ⟨code, args, ret, prototype⟩ := sig
    have present : ∀ a ∈ args, ∃ y, a = some y ∧ t.Reaches y := fun a member =>
      part (formed.args a member) fun y same => by simp [Node.children, ← same, member]
    have given := numbering.linkArgs sound present i
    obtain ⟨r, rfl, there⟩ := part (c := ret) formed.ret fun y same => by simp [Node.children, same]
    have result := numbering.resolve sound there i "return"
    have known : CodeKind.ofCode code.code = code := CodeKind.ofCode_code formed.code
    refine CompiledTable.linkClosure_eq_ok_iff.2 ⟨_, _, prototype.map (t.placed order), ?_, ?_, given, result, ?_, ?_⟩ <;>
      simp only [CompiledNode.ofNode, known]
    · rfl
    · obtain rfl | rfl | rfl : code = .function ∨ code = .method ∨ code = .constructor := formed.code <;> simp
    · exact fun other empty => formed.receiver other (List.map_eq_nil_iff.1 empty)
    · split_ifs with ctor
      · obtain ⟨q, rfl, there⟩ := part (c := prototype) (formed.proto ctor) fun y same => by simp [Node.children, same]
        exact ⟨_, rfl, numbering.resolve sound there i "prototype"⟩
      · rw [show prototype = none from proto _ rfl ctor]
        rfl
  | object ps =>
    have each : ∀ p ∈ ps, p.id < t.props.size ∧ ∃ y, p.type = some y ∧ t.Reaches y := fun p member =>
      ⟨inside p member, part (formed.2 p member) fun y same => List.mem_filterMap.2 ⟨p, member, same⟩⟩
    have members := numbering.linkProperties sound each formed.1 (by simp : ∀ p ∈ ps, p.id ∉ []) i
    simp only [Node.kindCode, Prim.ofCode?, CompiledNode.ofNode, members]
    rfl
  | array e | map e =>
    obtain ⟨y, rfl, there⟩ := part (c := e) formed fun y same => by simp [Node.children, same]
    have element := numbering.resolve sound there i "element"
    simp only [Node.kindCode, Prim.ofCode?, CompiledNode.ofNode, positionOf_some, element]
    rfl

def placedNodes (t : Table) (order : List TypeId) : List Node :=
  order.map fun y => (t.graph.node y).mapTypes (t.placed order)

def relinked (t : Table) (order : List TypeId) : Table :=
  ⟨t.props, .extended (t.placedNodes order), t.tags.map fun (name, type) => (name, t.placed order type)⟩

/-- Every numbered node is one of a type of the table. -/
theorem Numbering.exists_node (numbering : t.Numbering order) (rooted : t.graph.Rooted) {y : TypeId}
    (member : y ∈ order) : ∃ x, t.Reaches x ∧ t.graph.node y = t.graph.node x := by
  obtain ⟨x, here, rfl⟩ := (numbering.complete y).1 member
  exact ⟨x, here, t.graph.node_shared rooted x⟩

theorem Numbering.linkNodes (numbering : t.Numbering order) (sound : t.Sound) :
    (t.compiledBy order).linkNodes 0 (t.compiledBy order).nodes = .ok (t.placedNodes order) := by
  have each (ys : List TypeId) (i : Nat) (inside : ∀ y ∈ ys, y ∈ order) :
      (t.compiledBy order).linkNodes i
          (ys.map fun y => CompiledNode.ofNode (t.graph.positionOf order) (t.graph.node y)) =
        .ok (ys.map fun y => (t.graph.node y).mapTypes (t.placed order)) := by
    induction ys generalizing i with
    | nil => rfl
    | cons y ys ih =>
      obtain ⟨member, rest⟩ := List.forall_mem_cons.1 inside
      obtain ⟨x, here, same⟩ := numbering.exists_node sound.rooted member
      have first := numbering.linkNode sound here i
      simp only [List.map_cons, CompiledTable.linkNodes, same, first, ih (i + 1) rest]
      rfl
  exact each order 0 fun _ member => member

theorem Numbering.checkKinds (numbering : t.Numbering order) (sound : t.Sound) :
    CompiledTable.checkKinds 0 (t.compiledBy order).nodes = .ok () := by
  have all (ns : List CompiledNode) (i : Nat)
      (each : ∀ n ∈ ns, (Prim.ofCode? n.kind).isSome ∨ (7 ≤ n.kind ∧ n.kind ≤ 10)) :
      CompiledTable.checkKinds i ns = .ok () := by
    induction ns generalizing i with
    | nil => rfl
    | cons n ns ih =>
      obtain ⟨kind, rest⟩ := List.forall_mem_cons.1 each
      rw [CompiledTable.checkKinds, if_pos kind, ih (i + 1) rest]
  refine all _ 0 fun n member => ?_
  obtain ⟨y, inside, rfl⟩ := List.mem_map.1 member
  obtain ⟨x, here, same⟩ := numbering.exists_node sound.rooted inside
  have formed := sound.formed x here
  rw [CompiledNode.ofNode_kind, same]
  cases shape : t.graph.node x with
  | odd => exact (shape ▸ formed : (Node.odd _).WellFormed).elim
  | prim p => exact .inl (by simp [Node.kindCode, Prim.ofCode?_code])
  | _ => exact .inr (by simp [Node.kindCode])

/-- Names come in order, so each is put after those before. -/
theorem Numbering.linkNames (numbering : t.Numbering order) (sound : t.Sound) (g : Graph) :
    (t.compiledBy order).linkNames ⟨t.props, g, []⟩ (t.compiledBy order).names =
      .ok ⟨t.props, g, t.tags.map fun (name, type) => (name, t.placed order type)⟩ := by
  have each (before after : List (String × TypeId)) (all : t.tags = before ++ after) :
      (t.compiledBy order).linkNames ⟨t.props, g, before.map fun (name, type) => (name, t.placed order type)⟩
          (after.map fun (name, type) => ⟨name, t.graph.position order type⟩) =
        .ok ⟨t.props, g, t.tags.map fun (name, type) => (name, t.placed order type)⟩ := by
    induction after generalizing before with
    | nil => simp [all, CompiledTable.linkNames]
    | cons entry after ih =>
      obtain ⟨name, type⟩ := entry
      have member : (name, type) ∈ t.tags := by simp [all]
      have earlier : ∀ entry ∈ before.map fun (name, type) => (name, t.placed order type), entry.1 < name := by
        intro entry inside
        obtain ⟨e, old, rfl⟩ := List.mem_map.1 inside
        exact (List.pairwise_append.1 (all ▸ sound.sorted)).2.2 e old (name, type) List.mem_cons_self
      have found := numbering.resolve sound ⟨_, member, .refl⟩ (-1) ("name " ++ name)
      have named : (⟨t.props, g, before.map fun (name, type) => (name, t.placed order type)⟩ : Table).define name
          (some (t.placed order type)) =
            .ok ⟨t.props, g, (before ++ [(name, type)]).map fun (name, type) => (name, t.placed order type)⟩ := by
        refine define_eq_ok_iff.2 ⟨(sound.named _ member).1, (sound.named _ member).2, fun entry inside same => ?_,
          _, rfl, ?_⟩
        · exact String.lt_irrefl name (by simpa [same] using earlier entry inside)
        · simp only [insertTag_of_last earlier]
          simp
      have rest := ih (before ++ [(name, type)]) (by simp [all])
      simp only [List.map_cons, CompiledTable.linkNames, found]
      exact bind_eq_ok_iff.2 ⟨_, rfl, bind_eq_ok_iff.2 ⟨_, named, rest⟩⟩
  exact each [] t.tags rfl

theorem Numbering.link (numbering : t.Numbering order) (sound : t.Sound) :
    (t.compiledBy order).link = .ok (t.relinked order) := by
  have names : NameTable.ofList (t.compiledBy order).props = t.props := NameTable.ofList_of_nodup sound.distinct
  have size : ¬ t.props.size ≠ (t.compiledBy order).props.length := not_not.2 rfl
  have version : ¬ (t.compiledBy order).version ≠ compiledVersion := not_not.2 rfl
  rw [CompiledTable.link, if_neg version]
  refine bind_eq_ok_iff.2 ⟨(), numbering.checkKinds sound, ?_⟩
  simp only [names, if_neg size]
  exact bind_eq_ok_iff.2 ⟨_, numbering.linkNodes sound, numbering.linkNames sound _⟩

theorem placed_of_prim {p : Prim} (prim : t.graph.node x = .prim p) : t.placed order x = p.typeId := by
  simp [placed, prim]

theorem placed_of_not_prim (other : ∀ p, t.graph.node x ≠ .prim p) :
    t.placed order x = Graph.primitives.size + order.idxOf x := by
  unfold placed
  split
  · next p prim => exact absurd prim (other p)
  · rfl

theorem Numbering.isomorphic (numbering : t.Numbering order) :
    Isomorphic (t.placed order) t (t.relinked order) := by
  have node (x : TypeId) (here : t.Reaches x) :
      (t.relinked order).graph.node (t.placed order x) = (t.graph.node x).mapTypes (t.placed order) := by
    by_cases shape : ∃ p, t.graph.node x = .prim p
    · obtain ⟨p, prim⟩ := shape
      rw [placed_of_prim prim, prim]
      exact Graph.extended_rooted _ p
    · have other := not_exists.1 shape
      have member : x ∈ order := (numbering.complete x).2 ⟨x, here, Graph.shared_of_not_prim other⟩
      rw [placed_of_not_prim other]
      refine Graph.node_extended ?_
      rw [placedNodes, List.getElem?_map, List.getElem?_idxOf member]
      rfl
  refine ⟨rfl, rfl, node, fun x p => placed_of_prim, fun x y here there same => ?_, fun y => onto_of_node rfl node⟩
  have shapes : (t.graph.node x).mapTypes (t.placed order) = (t.graph.node y).mapTypes (t.placed order) := by
    rw [← node x here, ← node y there, same]
  by_cases first : ∃ p, t.graph.node x = .prim p
  · obtain ⟨p, prim⟩ := first
    have prim' : t.graph.node y = .prim p := by
      rw [prim] at shapes
      exact Node.mapTypes_eq_prim_iff.1 shapes.symm
    rw [Graph.shared_of_prim prim, Graph.shared_of_prim prim']
  · have other := not_exists.1 first
    have other' (p : Prim) : t.graph.node y ≠ .prim p := fun prim => by
      rw [prim] at shapes
      exact other p (Node.mapTypes_eq_prim_iff.1 shapes)
    rw [placed_of_not_prim other, placed_of_not_prim other', Nat.add_left_cancel_iff] at same
    rw [Graph.shared_of_not_prim other, Graph.shared_of_not_prim other']
    exact (List.idxOf_inj ((numbering.complete x).2 ⟨x, here, Graph.shared_of_not_prim other⟩)).1 same

end Table

end Gradual
