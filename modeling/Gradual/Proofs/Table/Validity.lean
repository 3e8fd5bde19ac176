import Gradual.Proofs.Table.RoundTrip
import Gradual.Proofs.Types.Completeness
import Gradual.Proofs.Types.Printing

/-!
Which compiled tables link. Linking is one pass over the kinds, one over the nodes and one over the names; each
accepts by a condition on the compiled form alone, and together they accept the valid forms. Every node of the graph
that comes out has all its parts in the graph, also where nothing refers to it, so the table can be compiled again and
its types can be printed and compared.
-/
namespace Gradual

theorem isOk_map_iff {x : Except ε α} {f : α → β} : (∃ b, f <$> x = .ok b) ↔ ∃ a, x = .ok a := by
  cases x <;> simp [Functor.map, Except.map]

theorem Prim.isSome_ofCode?_iff {code : Nat} : (Prim.ofCode? code).isSome ↔ 1 ≤ code ∧ code ≤ 6 := by
  unfold Prim.ofCode?
  split
  iterate 6 simp
  simp_all
  omega

theorem Prim.ofName?_eq_none_iff {name : String} : Prim.ofName? name = none ↔ ∀ p : Prim, name ≠ p.name := by
  unfold Prim.ofName?
  rw [List.find?_eq_none]
  constructor
  · intro none p same
    exact none p (by cases p <;> simp) (by simp [same])
  · intro other p _
    simpa using (other p).symm

namespace CodeKind

theorem ofCode_eq_iff {code : Nat} {k : CodeKind} (known : k = .function ∨ k = .method ∨ k = .constructor) :
    ofCode code = k ↔ code = k.code := by
  constructor
  · rintro rfl
    unfold ofCode at known ⊢
    split at known <;> simp_all [CodeKind.code]
  · rintro rfl
    exact ofCode_code known

theorem ofCode_ne_other_iff {code : Nat} :
    ofCode code ≠ .other code ↔ code ∈ [function.code, method.code, constructor.code] := by
  unfold ofCode
  split <;> simp_all [CodeKind.code]

end CodeKind

namespace CompiledTable

variable {w : CompiledTable}

def InRange (w : CompiledTable) (i : Int) : Prop := 0 ≤ i ∧ i < w.nodes.length

instance (i : Int) : Decidable (w.InRange i) := inferInstanceAs (Decidable (_ ∧ _))

structure ValidClosure (w : CompiledTable) (n : CompiledNode) : Prop where
  code : n.code ∈ [CodeKind.function.code, CodeKind.method.code, CodeKind.constructor.code]
  args : ∀ a ∈ n.args, w.InRange a
  ret : w.InRange n.ret
  proto : n.code = CodeKind.constructor.code → w.InRange n.proto
  receiver : n.code ≠ CodeKind.function.code → n.args ≠ []

structure ValidObject (w : CompiledTable) (n : CompiledNode) : Prop where
  once : (n.props.map (·.id)).Nodup
  numbered : ∀ p ∈ n.props, p.id < w.props.length
  types : ∀ p ∈ n.props, w.InRange p.type

/-- What linking asks of a compiled form. Kinds 1 to 6 are primitive; then come closures, objects, arrays and maps. -/
structure Valid (w : CompiledTable) : Prop where
  version : w.version = Table.compiledVersion
  kinds : ∀ n ∈ w.nodes, 1 ≤ n.kind ∧ n.kind ≤ 10
  props : w.props.Nodup
  closures : ∀ n ∈ w.nodes, n.kind = 7 → w.ValidClosure n
  objects : ∀ n ∈ w.nodes, n.kind = 8 → w.ValidObject n
  elements : ∀ n ∈ w.nodes, n.kind = 9 ∨ n.kind = 10 → w.InRange n.elem
  named : ∀ n ∈ w.names, n.name ≠ "" ∧ (∀ p : Prim, n.name ≠ p.name) ∧ w.InRange n.node
  names : (w.names.map (·.name)).Nodup

instance (n : CompiledNode) : Decidable (w.ValidClosure n) :=
  decidable_of_iff
    (n.code ∈ [CodeKind.function.code, CodeKind.method.code, CodeKind.constructor.code] ∧ (∀ a ∈ n.args, w.InRange a) ∧
      w.InRange n.ret ∧ (n.code = CodeKind.constructor.code → w.InRange n.proto) ∧
      (n.code ≠ CodeKind.function.code → n.args ≠ []))
    ⟨fun ⟨code, args, ret, proto, receiver⟩ => ⟨code, args, ret, proto, receiver⟩,
      fun h => ⟨h.code, h.args, h.ret, h.proto, h.receiver⟩⟩

instance (n : CompiledNode) : Decidable (w.ValidObject n) :=
  decidable_of_iff
    ((n.props.map (·.id)).Nodup ∧ (∀ p ∈ n.props, p.id < w.props.length) ∧ ∀ p ∈ n.props, w.InRange p.type)
    ⟨fun ⟨once, numbered, types⟩ => ⟨once, numbered, types⟩, fun h => ⟨h.once, h.numbered, h.types⟩⟩

instance : Decidable w.Valid :=
  decidable_of_iff
    (w.version = Table.compiledVersion ∧ (∀ n ∈ w.nodes, 1 ≤ n.kind ∧ n.kind ≤ 10) ∧ w.props.Nodup ∧
      (∀ n ∈ w.nodes, n.kind = 7 → w.ValidClosure n) ∧ (∀ n ∈ w.nodes, n.kind = 8 → w.ValidObject n) ∧
      (∀ n ∈ w.nodes, n.kind = 9 ∨ n.kind = 10 → w.InRange n.elem) ∧
      (∀ n ∈ w.names, n.name ≠ "" ∧ Prim.ofName? n.name = none ∧ w.InRange n.node) ∧
      (w.names.map (·.name)).Nodup)
    (by
      simp only [Prim.ofName?_eq_none_iff]
      exact ⟨fun ⟨version, kinds, props, closures, objects, elements, named, names⟩ =>
          ⟨version, kinds, props, closures, objects, elements, named, names⟩,
        fun h => ⟨h.version, h.kinds, h.props, h.closures, h.objects, h.elements, h.named, h.names⟩⟩)

theorem resolve_isOk_iff (source : Int) (role : String) (target : Int) :
    (∃ t, w.resolve source role target = .ok t) ↔ w.InRange target := by
  unfold resolve InRange
  by_cases negative : target < 0
  · rw [if_pos negative]
    constructor
    · rintro ⟨t, failed⟩
      cases failed
    · rintro ⟨natural, _⟩
      omega
  · rw [if_neg negative]
    by_cases inside : target.toNat < w.nodes.length
    · simp only [List.getElem?_eq_getElem inside]
      constructor
      · intro _
        omega
      · intro _
        exact ⟨_, rfl⟩
    · simp only [List.getElem?_eq_none (Nat.le_of_not_lt inside)]
      constructor
      · rintro ⟨t, failed⟩
        cases failed
      · intro bounds
        omega

theorem linkArgs_isOk_iff {i : Nat} {args : List Int} :
    (∃ cs, w.linkArgs i args = .ok cs) ↔ ∀ a ∈ args, w.InRange a := by
  induction args with
  | nil => simp [linkArgs]
  | cons a args ih =>
    rw [List.forall_mem_cons, ← ih, ← resolve_isOk_iff i "argument"]
    simp only [linkArgs, bind_eq_ok_iff]
    constructor
    · rintro ⟨_, t, first, ts, rest, -⟩
      exact ⟨⟨t, first⟩, ts, rest⟩
    · rintro ⟨⟨t, first⟩, ts, rest⟩
      exact ⟨_, t, first, ts, rest, rfl⟩

theorem length_linkArgs {i : Nat} {args : List Int} {cs : List Child} (linked : w.linkArgs i args = .ok cs) :
    cs.length = args.length := by
  induction args generalizing cs with
  | nil => cases linked; rfl
  | cons a args ih =>
    obtain ⟨t, first, linked⟩ := bind_eq_ok_iff.1 linked
    obtain ⟨ts, rest, linked⟩ := bind_eq_ok_iff.1 linked
    cases linked
    simp [ih rest]

theorem linkProperties_isOk_iff {i : Nat} {seen : List PropId} {ps : List CompiledProperty} :
    (∃ out, w.linkProperties i seen ps = .ok out) ↔ (ps.map (·.id)).Nodup ∧
      ∀ p ∈ ps, p.id < w.props.length ∧ p.id ∉ seen ∧ w.InRange p.type := by
  induction ps generalizing seen with
  | nil => simp [linkProperties]
  | cons p ps ih =>
    unfold linkProperties
    by_cases bad : w.props.length ≤ p.id ∨ p.id ∈ seen
    · rw [if_pos bad]
      constructor
      · rintro ⟨out, failed⟩
        cases failed
      · rintro ⟨-, each⟩
        obtain ⟨numbered, fresh, -⟩ := each p List.mem_cons_self
        rcases bad with beyond | old
        · omega
        · exact absurd old fresh
    · rw [if_neg bad]
      rw [not_or, Nat.not_le] at bad
      simp only [bind_eq_ok_iff]
      constructor
      · rintro ⟨_, t, first, rest, tail, -⟩
        obtain ⟨once, each⟩ := ih.1 ⟨rest, tail⟩
        refine ⟨?_, ?_⟩
        · rw [List.map_cons, List.nodup_cons]
          refine ⟨?_, once⟩
          intro again
          obtain ⟨q, member, same⟩ := List.mem_map.1 again
          exact (each q member).2.1 (by simp [same])
        · intro q member
          rcases List.mem_cons.1 member with rfl | member
          · exact ⟨bad.1, bad.2, (resolve_isOk_iff i "property" q.type).1 ⟨t, first⟩⟩
          · obtain ⟨numbered, fresh, inside⟩ := each q member
            exact ⟨numbered, fun old => fresh (List.mem_cons_of_mem _ old), inside⟩
      · rintro ⟨once, each⟩
        rw [List.map_cons, List.nodup_cons] at once
        obtain ⟨-, -, inside⟩ := each p List.mem_cons_self
        obtain ⟨t, first⟩ := (resolve_isOk_iff i "property" p.type).2 inside
        have others : ∀ q ∈ ps, q.id < w.props.length ∧ q.id ∉ p.id :: seen ∧ w.InRange q.type := by
          intro q member
          obtain ⟨numbered, fresh, inside⟩ := each q (List.mem_cons_of_mem _ member)
          refine ⟨numbered, ?_, inside⟩
          rw [List.mem_cons, not_or]
          exact ⟨fun same => once.1 (List.mem_map.2 ⟨q, member, same⟩), fresh⟩
        obtain ⟨rest, tail⟩ := ih.2 ⟨once.2, others⟩
        exact ⟨_, t, first, rest, tail, rfl⟩

theorem linkClosure_isOk_iff {i : Nat} {n : CompiledNode} :
    (∃ node, w.linkClosure i n = .ok node) ↔ w.ValidClosure n := by
  simp only [linkClosure_eq_ok_iff, CodeKind.ofCode_ne_other_iff, ne_eq,
    CodeKind.ofCode_eq_iff (k := .function) (.inl rfl), CodeKind.ofCode_eq_iff (k := .constructor) (.inr (.inr rfl))]
  constructor
  · rintro ⟨_, args, ret, proto, -, code, given, result, receiver, prototype⟩
    refine ⟨code, linkArgs_isOk_iff.1 ⟨args, given⟩, (resolve_isOk_iff i "return" n.ret).1 ⟨ret, result⟩, ?_, ?_⟩
    · intro ctor
      rw [if_pos ctor] at prototype
      obtain ⟨q, -, found⟩ := prototype
      exact (resolve_isOk_iff i "prototype" n.proto).1 ⟨q, found⟩
    · intro other empty
      have count := length_linkArgs given
      rw [empty] at count
      exact receiver other (List.length_eq_zero_iff.1 count)
  · intro valid
    obtain ⟨args, given⟩ := linkArgs_isOk_iff.2 valid.args
    obtain ⟨ret, result⟩ := (resolve_isOk_iff i "return" n.ret).2 valid.ret
    have receiver (other : ¬ n.code = CodeKind.function.code) : ¬ args = [] := by
      have count := length_linkArgs given
      rintro rfl
      exact valid.receiver other (List.length_eq_zero_iff.1 count.symm)
    by_cases ctor : n.code = CodeKind.constructor.code
    · obtain ⟨q, found⟩ := (resolve_isOk_iff i "prototype" n.proto).2 (valid.proto ctor)
      refine ⟨_, args, ret, some q, rfl, valid.code, given, result, receiver, ?_⟩
      rw [if_pos ctor]
      exact ⟨q, rfl, found⟩
    · refine ⟨_, args, ret, none, rfl, valid.code, given, result, receiver, ?_⟩
      rw [if_neg ctor]

structure ValidNode (w : CompiledTable) (n : CompiledNode) : Prop where
  closure : n.kind = 7 → w.ValidClosure n
  object : n.kind = 8 → w.ValidObject n
  element : n.kind = 9 ∨ n.kind = 10 → w.InRange n.elem

theorem linkNode_isOk_iff {i : Nat} {n : CompiledNode} (kind : 1 ≤ n.kind ∧ n.kind ≤ 10) :
    (∃ node, w.linkNode i n = .ok node) ↔ w.ValidNode n := by
  have shapes : n.kind ≤ 6 ∨ n.kind = 7 ∨ n.kind = 8 ∨ (n.kind = 9 ∨ n.kind = 10) := by omega
  rcases shapes with low | seven | eight | container
  · obtain ⟨p, prim⟩ := Option.isSome_iff_exists.1 (Prim.isSome_ofCode?_iff.2 ⟨kind.1, low⟩)
    have linked : w.linkNode i n = .ok (.prim p) := by simp only [linkNode, prim]
    constructor
    · intro _
      constructor <;> intro _ <;> omega
    · intro _
      exact ⟨_, linked⟩
  · have linked : w.linkNode i n = w.linkClosure i n := by simp only [linkNode, seven, Prim.ofCode?]
    rw [linked, linkClosure_isOk_iff]
    constructor
    · intro valid
      exact ⟨fun _ => valid, by omega, by omega⟩
    · intro valid
      exact valid.closure seven
  · have linked : w.linkNode i n = .object <$> w.linkProperties i [] n.props := by
      simp only [linkNode, eight, Prim.ofCode?]
    rw [linked, isOk_map_iff, linkProperties_isOk_iff]
    constructor
    · rintro ⟨once, each⟩
      exact ⟨by omega, fun _ => ⟨once, fun p member => (each p member).1, fun p member => (each p member).2.2⟩, by omega⟩
    · intro valid
      obtain ⟨once, numbered, types⟩ := valid.object eight
      exact ⟨once, fun p member => ⟨numbered p member, by simp, types p member⟩⟩
  · have linked : ∃ make : TypeId → Node, w.linkNode i n = make <$> w.resolve i "element" n.elem := by
      rcases container with nine | ten
      · exact ⟨fun t => .array (some t), by simp only [linkNode, nine, Prim.ofCode?, bind_pure_comp]⟩
      · exact ⟨fun t => .map (some t), by simp only [linkNode, ten, Prim.ofCode?, bind_pure_comp]⟩
    obtain ⟨make, linked⟩ := linked
    rw [linked, isOk_map_iff, resolve_isOk_iff]
    constructor
    · intro inside
      exact ⟨by omega, by omega, fun _ => inside⟩
    · intro valid
      exact valid.element container

theorem linkNodes_isOk_iff {i : Nat} {ns : List CompiledNode} (kinds : ∀ n ∈ ns, 1 ≤ n.kind ∧ n.kind ≤ 10) :
    (∃ nodes, w.linkNodes i ns = .ok nodes) ↔ ∀ n ∈ ns, w.ValidNode n := by
  induction ns generalizing i with
  | nil => simp [linkNodes]
  | cons n ns ih =>
    rw [List.forall_mem_cons] at kinds ⊢
    rw [← ih kinds.2, ← linkNode_isOk_iff kinds.1]
    simp only [linkNodes, bind_eq_ok_iff]
    constructor
    · rintro ⟨_, node, first, nodes, rest, -⟩
      exact ⟨⟨node, first⟩, nodes, rest⟩
    · rintro ⟨⟨node, first⟩, nodes, rest⟩
      exact ⟨_, node, first, nodes, rest, rfl⟩

theorem checkKinds_eq_ok_iff {i : Nat} {ns : List CompiledNode} :
    checkKinds i ns = .ok () ↔ ∀ n ∈ ns, 1 ≤ n.kind ∧ n.kind ≤ 10 := by
  induction ns generalizing i with
  | nil => simp [checkKinds]
  | cons n ns ih =>
    have known : ((Prim.ofCode? n.kind).isSome ∨ (7 ≤ n.kind ∧ n.kind ≤ 10)) ↔ 1 ≤ n.kind ∧ n.kind ≤ 10 := by
      rw [Prim.isSome_ofCode?_iff]
      omega
    rw [List.forall_mem_cons, ← known]
    by_cases kind : (Prim.ofCode? n.kind).isSome ∨ (7 ≤ n.kind ∧ n.kind ≤ 10)
    · rw [checkKinds, if_pos kind, ih]
      exact (and_iff_right kind).symm
    · rw [checkKinds, if_neg kind]
      simp [kind]

theorem linkNames_isOk_iff {t : Table} {ns : List CompiledName} :
    (∃ u, w.linkNames t ns = .ok u) ↔ (ns.map (·.name)).Nodup ∧ (∀ n ∈ ns, ∀ entry ∈ t.tags, entry.1 ≠ n.name) ∧
      ∀ n ∈ ns, n.name ≠ "" ∧ (∀ p : Prim, n.name ≠ p.name) ∧ w.InRange n.node := by
  induction ns generalizing t with
  | nil => simp [linkNames]
  | cons n ns ih =>
    simp only [linkNames, bind_eq_ok_iff, Table.define_eq_ok_iff, Prim.ofName?_eq_none_iff]
    constructor
    · rintro ⟨u, type, found, next, ⟨nonempty, other, fresh, _, same, rfl⟩, rest⟩
      cases same
      obtain ⟨once, apart, each⟩ := ih.1 ⟨u, rest⟩
      refine ⟨?_, ?_, ?_⟩
      · rw [List.map_cons, List.nodup_cons]
        refine ⟨?_, once⟩
        intro again
        obtain ⟨m, member, same⟩ := List.mem_map.1 again
        exact apart m member (n.name, type) (Table.mem_insertTag.2 (.inl rfl)) same.symm
      · intro m member entry old
        rcases List.mem_cons.1 member with rfl | member
        · exact fresh entry old
        · exact apart m member entry (Table.mem_insertTag.2 (.inr old))
      · rw [List.forall_mem_cons]
        exact ⟨⟨nonempty, other, (resolve_isOk_iff _ _ _).1 ⟨type, found⟩⟩, each⟩
    · rintro ⟨once, apart, each⟩
      rw [List.map_cons, List.nodup_cons] at once
      rw [List.forall_mem_cons] at apart each
      obtain ⟨⟨nonempty, other, inside⟩, each⟩ := each
      obtain ⟨type, found⟩ := (resolve_isOk_iff (-1) ("name " ++ n.name) n.node).2 inside
      have later : ∀ m ∈ ns, ∀ entry ∈ Table.insertTag n.name type t.tags, entry.1 ≠ m.name := by
        intro m member entry old
        rcases Table.mem_insertTag.1 old with rfl | old
        · intro same
          exact once.1 (List.mem_map.2 ⟨m, member, same.symm⟩)
        · exact apart.2 m member entry old
      obtain ⟨u, rest⟩ := (ih (t := { t with tags := Table.insertTag n.name type t.tags })).2 ⟨once.2, later, each⟩
      exact ⟨u, type, found, _, ⟨nonempty, other, apart.1, type, rfl, rfl⟩, rest⟩

/-- Exactly the valid forms link. -/
theorem link_isOk_iff (w : CompiledTable) : (∃ t, w.link = .ok t) ↔ w.Valid := by
  constructor
  · rintro ⟨t, linked⟩
    obtain ⟨version, checked, size, nodes, linked, named⟩ := link_eq_ok_iff.1 linked
    have kinds := checkKinds_eq_ok_iff.1 checked
    have each := (linkNodes_isOk_iff kinds).1 ⟨nodes, linked⟩
    obtain ⟨once, -, names⟩ := linkNames_isOk_iff.1 ⟨t, named⟩
    exact ⟨version, kinds, NameTable.size_ofList_eq_iff.1 size, fun n member => (each n member).closure,
      fun n member => (each n member).object, fun n member => (each n member).element, names, once⟩
  · intro valid
    have each : ∀ n ∈ w.nodes, w.ValidNode n := by
      intro n member
      exact ⟨valid.closures n member, valid.objects n member, valid.elements n member⟩
    obtain ⟨nodes, linked⟩ := (linkNodes_isOk_iff (i := 0) valid.kinds).2 each
    obtain ⟨t, named⟩ := (linkNames_isOk_iff (t := ⟨NameTable.ofList w.props, .extended nodes, []⟩)).2
      ⟨valid.names, by simp, valid.named⟩
    exact ⟨t, link_eq_ok_iff.2 ⟨valid.version, checkKinds_eq_ok_iff.2 valid.kinds,
      NameTable.size_ofList_eq_iff.2 valid.props, nodes, linked, named⟩⟩

end CompiledTable

namespace Node

variable {n : Node}

/-- The explicit arguments of a closure type can be counted, and they are all there. -/
theorem WellFormed.explicitCount {sig : Signature} (formed : (Node.closure sig).WellFormed) :
    (Node.closure sig).explicitCount = .ok sig.explicit.length ∧ ∀ a ∈ sig.explicit, a.isSome := by
  have counted : (sig.explicit.length : Int) = sig.explicitCount := Signature.WellFormed.length_explicit formed
  refine ⟨by rw [Node.explicitCount, counted], ?_⟩
  intro a member
  apply formed.args a
  unfold Signature.explicit at member
  split at member
  · exact member
  · exact List.mem_of_mem_drop member

/-- Exactly methods and constructors have a receiver. -/
theorem WellFormed.isSome_receiver_iff (formed : n.WellFormed) :
    n.receiver.isSome ↔ ∃ sig, n = .closure sig ∧ sig.code ≠ .function := by
  cases n with
  | closure sig =>
    by_cases function : sig.code = .function
    · simp [Node.receiver, Signature.receiver, Signature.isFunction, function]
    · have present : sig.args ≠ [] := formed.receiver function
      obtain ⟨a, rest, given⟩ := List.exists_cons_of_ne_nil present
      have first : a.isSome := formed.args a (by simp [given])
      simp [Node.receiver, Signature.receiver, Signature.isFunction, function, given, first]
  | _ => simp [Node.receiver]

end Node

namespace Table

/-- Where every node has its parts in the graph, every node is well formed with all that it refers to. -/
theorem wellFormed_of_holds {t : Table}
    (holds : ∀ x < t.graph.size, TypeStore.Holds ⟨t.graph, t.props⟩ (t.graph.node x)) {x : TypeId}
    (inside : x < t.graph.size) : t.graph.WellFormed x := by
  intro y path
  exact (holds y (lt_size_of_path holds path inside)).formed

/-- Reading a compiled table accepts exactly the valid ones. The table that comes out can be compiled, and each of its
types, named or not, is well formed with all that it refers to: it is printed in full, compared with any other up to an
overflow of hypotheses, and has a receiver if it is a method or a constructor. The explicit arguments can be counted of
closure types only. -/
theorem link_exact [Codec] (w : CompiledTable) (data : Bytes) :
    ((∃ t, w.link = .ok t) ↔ w.Valid) ∧
    ((∃ t, Table.decode data = .ok t) ↔ ∃ w, Codec.read? data = some w ∧ w.Valid) ∧
    ∀ t, w.link = .ok t → (∀ entry ∈ t.tags, entry.2 < t.graph.size) ∧ (∃ bytes, t.encode = .ok bytes) ∧
      ∀ x < t.graph.size, t.graph.WellFormed x ∧
        (∀ names fuel, t.graph.size < fuel → t.graph.printWithin names fuel [] (some x) =
          t.graph.printWithin names (t.graph.size + 2) [] (some x)) ∧
        (∀ c : Checker, ∀ rel, ∀ y < t.graph.size, (c.decide t.graph rel (some x) (some y)).Whole) ∧
        ((t.graph.node x).receiver.isSome ↔ ∃ sig, t.graph.node x = .closure sig ∧ sig.code ≠ .function) ∧
        (∀ sig, t.graph.node x = .closure sig →
          (t.graph.node x).explicitCount = .ok sig.explicit.length ∧ ∀ a ∈ sig.explicit, a.isSome) ∧
        ((t.graph.node x).signature? = none → (t.graph.node x).explicitCount = .error .notClosure) := by
  refine ⟨w.link_isOk_iff, ?_, ?_⟩
  · unfold Table.decode
    cases Codec.read? data with
    | none => simp
    | some form =>
      have linked : (∃ t, form.link.mapError TableReadError.table = .ok t) ↔ ∃ t, form.link = .ok t := by
        cases form.link <;> simp [Except.mapError]
      simp only [linked, form.link_isOk_iff]
      simp
  · intro t linked
    obtain ⟨-, holds, roots⟩ := CompiledTable.link_holds linked
    obtain ⟨order, -, compiled⟩ := (CompiledTable.link_sound linked).compile
    refine ⟨roots, ⟨_, by rw [Table.encode, compiled]; rfl⟩, ?_⟩
    intro x inside
    have formed := wellFormed_of_holds holds inside
    refine ⟨formed, fun names fuel enough => formed.printWithin_eq names enough, ?_, formed.node.isSome_receiver_iff,
      ?_, ?_⟩
    · intro c rel y within
      exact Checker.decide_whole rel formed (wellFormed_of_holds holds within)
    · intro sig shape
      rw [shape]
      exact Node.WellFormed.explicitCount (shape ▸ formed.node)
    · intro other
      cases shape : t.graph.node x with
      | closure sig =>
        rw [shape] at other
        cases other
      | _ => rfl

/-- An object that refers to itself and to a method that comes later, and an array that only refers to itself. -/
def tangled : CompiledTable where
  version := 1
  props := ["next", "size"]
  names := [⟨"Ring", 2⟩]
  nodes := [⟨1, 0, [], -1, -1, [], -1⟩, ⟨9, 0, [], -1, -1, [], 1⟩,
    ⟨8, 0, [], -1, -1, [⟨0, 2, true⟩, ⟨1, 3, false⟩], -1⟩, ⟨7, 2, [2], 0, -1, [], -1⟩]

theorem link_tangled : tangled.link = .ok ⟨⟨#["next", "size"]⟩,
    .extended [.prim .int, .array (some 7), .object [⟨0, some 8, true⟩, ⟨1, some 9, false⟩],
      .closure ⟨.method, [some 8], some 0, none⟩], [("Ring", 8)]⟩ := by
  have names : NameTable.ofList tangled.props = ⟨#["next", "size"]⟩ := NameTable.ofList_of_nodup (by decide)
  refine CompiledTable.link_eq_ok_iff.2 ⟨rfl, rfl, ?_, _, rfl, ?_⟩
  · rw [names]
    rfl
  · rw [names]
    rfl

theorem link_exact_tangled : tangled.Valid ∧ ∃ t, tangled.link = .ok t ∧ (∃ bytes, t.encode = .ok bytes) ∧
    7 < t.graph.size ∧ t.graph.WellFormed 7 ∧ 9 < t.graph.size ∧ (t.graph.node 9).receiver.isSome ∧
    (Checker.mk 50 .covariant .silent |>.decide t.graph .equal (some 7) (some 9)).Whole ∧
    (t.graph.node 9).explicitCount = .ok (0 : Nat) := by
  have valid : tangled.Valid := by decide
  obtain ⟨accepts, -, tables⟩ := link_exact tangled []
  obtain ⟨t, linked⟩ := accepts.2 valid
  obtain ⟨-, encoded, types⟩ := tables t linked
  obtain rfl := Except.ok.inj (link_tangled.symm.trans linked)
  have array := types 7 (by decide)
  have method := types 9 (by decide)
  refine ⟨valid, _, linked, encoded, by decide, array.1, by decide, method.2.2.2.1.2 ⟨_, rfl, by decide⟩,
    array.2.2.1 _ _ 9 (by decide), ?_⟩
  exact (method.2.2.2.2.1 _ rfl).1

/-- The arguments of a named type that is no closure cannot be counted. -/
theorem explicitCount_linked_object : ¬ ∀ (w : CompiledTable) (t : Table), w.link = .ok t →
    ∀ entry ∈ t.tags, ∃ n, (t.graph.node entry.2).explicitCount = .ok n := by
  intro always
  obtain ⟨n, counted⟩ := always tangled _ link_tangled ("Ring", 8) (by decide)
  cases counted

end Table

end Gradual
