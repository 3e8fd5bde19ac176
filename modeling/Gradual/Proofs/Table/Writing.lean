import Gradual.Proofs.Cbor.PrefixCode
import Gradual.Proofs.Table.RoundTrip

/-!
Different compiled tables have different bytes. Nothing of a compiled table is lost as it is written, also
where fields are left out, and all that is written can be told apart if no list and no text is longer than a
head can tell. Main statement: `Numbering.bytes_inj`.
-/
namespace Gradual

namespace Cbor.Item

theorem int_injective : Function.Injective int := by
  intro m n same
  unfold int at same
  split_ifs at same with left right
  · have := uint.inj same
    omega
  · have := negative.inj same
    omega

theorem string_injective : Function.Injective string := by
  intro s t same
  have read := asString?_string s
  rw [same, asString?_string] at read
  exact (Option.some.inj read).symm

theorem list_injective {write : α → Item} (each : Function.Injective write) : Function.Injective (list write) := by
  intro xs ys same
  cases xs with
  | nil =>
    cases ys with
    | nil => rfl
    | cons => cases same
  | cons =>
    cases ys with
    | nil => cases same
    | cons => exact each.list_map (array.inj same)

theorem record_injective : Function.Injective record := by
  intro xs ys same
  have pairs : Function.Injective fun (field : Nat × Item) => (uint field.1, field.2) := by
    rintro ⟨n, value⟩ ⟨n', value'⟩ same
    simpa using same
  exact pairs.list_map (map.inj same)

/-- A value that is left out if it is empty. -/
theorem unless_inj {write : α → Item} (each : Function.Injective write) {d x y : α} [Decidable (x = d)]
    [Decidable (y = d)] (same : (if x = d then none else some (write x)) = if y = d then none else some (write y)) :
    x = y := by
  split_ifs at same with left right
  · exact left.trans right.symm
  · exact each (Option.some.inj same)

theorem Sized.null : Sized null := .simple (by decide)

theorem Sized.list {write : α → Item} {xs : List α} (fits : xs.length < 256 ^ 8)
    (each : ∀ x ∈ xs, Sized (write x)) : Sized (list write xs) := by
  cases xs with
  | nil => exact .null
  | cons x xs =>
    refine .array (by simpa using fits) fun item inside => ?_
    obtain ⟨y, member, rfl⟩ := List.mem_map.1 inside
    exact each y member

theorem Sized.record {fields : List (Nat × Item)} (few : fields.length ≤ 8)
    (each : ∀ field ∈ fields, field.1 < 8 ∧ Sized field.2) : Sized (record fields) := by
  have bound : (8 : Nat) < 256 ^ 8 := by decide
  refine .map (by simpa using few.trans_lt bound) (fun pair inside => ?_) fun pair inside => ?_
  all_goals
    obtain ⟨field, member, rfl⟩ := List.mem_map.1 inside
  · exact .uint ((each field member).1.trans bound)
  · exact (each field member).2

end Cbor.Item

open Cbor Item

theorem CompiledProperty.toItem_injective : Function.Injective CompiledProperty.toItem := by
  rintro ⟨id, type, readOnly⟩ ⟨id', type', readOnly'⟩ same
  have fields := record_injective same
  simp only [List.cons_append, List.nil_append, List.cons.injEq, Prod.mk.injEq, true_and, uint.injEq] at fields
  obtain ⟨rfl, types, flags⟩ := fields
  cases int_injective types
  cases readOnly <;> cases readOnly' <;> simp_all [Item.optional]

theorem CompiledName.toItem_injective : Function.Injective CompiledName.toItem := by
  rintro ⟨name, node⟩ ⟨name', node'⟩ same
  have fields := record_injective same
  simp only [List.cons.injEq, Prod.mk.injEq, true_and, and_true] at fields
  rw [string_injective fields.1, int_injective fields.2]

theorem CompiledNode.toItem_injective : Function.Injective CompiledNode.toItem := by
  rintro ⟨kind, code, args, ret, proto, props, elem⟩ ⟨kind', code', args', ret', proto', props', elem'⟩ same
  have field (n : Nat) := congrArg (List.lookup n) (record_injective same)
  simp only [List.lookup_append, lookup_optional] at field
  have kinds : kind = kind' := by simpa [List.lookup_cons] using field 1
  have codes : code = code' := by
    apply unless_inj (d := 0) fun _ _ => uint.inj
    simpa [List.lookup_cons] using field 2
  have lists : args = args' := by
    apply unless_inj (d := []) (list_injective int_injective)
    simpa [List.lookup_cons] using field 3
  have rets : ret = ret' := int_injective (by simpa [List.lookup_cons] using field 4)
  have protos : proto = proto' := int_injective (by simpa [List.lookup_cons] using field 5)
  have members : props = props' := by
    apply unless_inj (d := []) (list_injective CompiledProperty.toItem_injective)
    simpa [List.lookup_cons] using field 6
  have elems : elem = elem' := int_injective (by simpa [List.lookup_cons] using field 7)
  rw [kinds, codes, lists, rets, protos, members, elems]

theorem CompiledTable.toItem_injective : Function.Injective CompiledTable.toItem := by
  rintro ⟨version, props, names, nodes⟩ ⟨version', props', names', nodes'⟩ same
  have fields := record_injective same
  simp only [List.cons.injEq, Prod.mk.injEq, true_and, and_true, uint.injEq] at fields
  obtain ⟨rfl, texts, named, listed⟩ := fields
  rw [list_injective string_injective texts, list_injective CompiledName.toItem_injective named,
    list_injective CompiledNode.toItem_injective listed]

structure CompiledTable.Countable (w : CompiledTable) : Prop where
  props : w.props.length < 256 ^ 8
  names : w.names.length < 256 ^ 8
  nodes : w.nodes.length < 256 ^ 8
  args : ∀ n ∈ w.nodes, n.args.length < 256 ^ 8
  members : ∀ n ∈ w.nodes, n.props.length < 256 ^ 8
  texts : ∀ s ∈ w.props ++ w.names.map (·.name), (Bytes.ofString s).length < 256 ^ 8

theorem CompiledProperty.sized {p : CompiledProperty} (id : p.id < 256 ^ 8) (type : Sized (.int p.type)) :
    Sized p.toItem := by
  have count := length_optional_le p.readOnly 3 (.bool true)
  refine .record (by simp; omega) fun field inside => ?_
  simp only [List.mem_append, List.mem_cons, List.not_mem_nil, or_false] at inside
  obtain (rfl | rfl) | inside := inside
  · exact ⟨by simp, .uint id⟩
  · exact ⟨by simp, type⟩
  · exact eq_of_mem_optional inside ▸ ⟨by simp, .simple (by decide)⟩

theorem CompiledName.sized {n : CompiledName} (name : (Bytes.ofString n.name).length < 256 ^ 8)
    (node : Sized (.int n.node)) : Sized n.toItem := by
  have text : Sized (.string n.name) := .text name
  exact .record (by simp) (by simp [text, node])

theorem CompiledNode.sized {n : CompiledNode} (kind : n.kind < 256) (code : n.code < 256)
    (argCount : n.args.length < 256 ^ 8) (propCount : n.props.length < 256 ^ 8)
    (refs : ∀ r ∈ n.ret :: n.proto :: n.elem :: n.args, Sized (.int r)) (props : ∀ p ∈ n.props, Sized p.toItem) :
    Sized n.toItem := by
  have byte {k : Nat} (h : k < 256) : Sized (.uint k) := .uint (h.trans (by decide))
  simp only [List.forall_mem_cons] at refs
  obtain ⟨ret, proto, elem, args⟩ := refs
  have codeCount := length_optional_le (n.code != 0) 2 (.uint n.code)
  have argsCount := length_optional_le (!n.args.isEmpty) 3 (.list .int n.args)
  have propsCount := length_optional_le (!n.props.isEmpty) 6 (.list CompiledProperty.toItem n.props)
  refine .record (by simp; omega) fun field inside => ?_
  simp only [List.mem_append, List.mem_cons, List.not_mem_nil, or_false] at inside
  obtain ((((rfl | inside) | inside) | rfl | rfl) | inside) | rfl := inside
  · exact ⟨by simp, byte kind⟩
  · exact eq_of_mem_optional inside ▸ ⟨by simp, byte code⟩
  · exact eq_of_mem_optional inside ▸ ⟨by simp, .list argCount args⟩
  · exact ⟨by simp, ret⟩
  · exact ⟨by simp, proto⟩
  · exact eq_of_mem_optional inside ▸ ⟨by simp, .list propCount props⟩
  · exact ⟨by simp, elem⟩

/-- What a compiled node refers to are positions, or nothing. -/
theorem CompiledNode.ofNode_refs {position : Child → Int} {n : Node} {r : Int}
    (member : r ∈ (ofNode position n).ret :: (ofNode position n).proto :: (ofNode position n).elem ::
      (ofNode position n).args) : r = -1 ∨ ∃ c, r = position c := by
  cases n with
  | closure s =>
    simp only [ofNode, List.mem_cons, List.mem_map] at member
    obtain rfl | rfl | rfl | ⟨c, _, rfl⟩ := member
    · exact .inr ⟨_, rfl⟩
    · exact .inr ⟨_, rfl⟩
    · exact .inl rfl
    · exact .inr ⟨c, rfl⟩
  | array e | map e =>
    simp only [ofNode, List.mem_cons, List.not_mem_nil, or_false] at member
    obtain rfl | rfl | rfl := member
    · exact .inl rfl
    · exact .inl rfl
    · exact .inr ⟨e, rfl⟩
  | odd | prim | object => simp_all [ofNode]

theorem CompiledNode.ofNode_codes (position : Child → Int) {n : Node} (formed : n.WellFormed) :
    (ofNode position n).kind < 256 ∧ (ofNode position n).code < 256 := by
  cases n with
  | odd => exact formed.elim
  | prim p => cases p <;> simp [ofNode, Node.kindCode, Prim.code, Prim.typeId]
  | closure s =>
    rcases formed.code with h | h | h <;> simp [ofNode, Node.kindCode, h, CodeKind.code]
  | object | array | map => simp [ofNode, Node.kindCode]

namespace Table

variable {t u : Table} {order order' : List TypeId}

theorem Numbering.sized (numbering : t.Numbering order) (compilable : t.Compilable)
    (countable : (t.compiledBy order).Countable) : Sized (t.compiledBy order).toItem := by
  have absent : Sized (.int (-1)) := .int (by decide) (by decide)
  have ref (c : Child) : Sized (.int (t.graph.positionOf order c)) := by
    cases c with
    | none => exact absent
    | some x =>
      have count : order.length < 256 ^ 8 := by simpa [compiledBy] using countable.nodes
      have le := List.idxOf_le_length (a := t.graph.shared x) (l := order)
      refine .int ?_ ?_ <;> simp only [positionOf_some, Graph.position] <;> omega
  have texts := fun s member => countable.texts s (List.mem_append.2 member)
  refine .record (by simp) fun field inside => ?_
  simp only [List.mem_cons, List.not_mem_nil, or_false] at inside
  obtain rfl | rfl | rfl | rfl := inside
  · exact ⟨by simp, .uint (by simp [compiledBy, compiledVersion])⟩
  · exact ⟨by simp, .list countable.props fun s member => .text (texts s (.inl member))⟩
  · refine ⟨by simp, .list countable.names fun n member => ?_⟩
    refine CompiledName.sized (texts _ (.inr (List.mem_map_of_mem member))) ?_
    obtain ⟨entry, _, rfl⟩ := List.mem_map.1 member
    exact ref (some entry.2)
  · refine ⟨by simp, .list countable.nodes fun n member => ?_⟩
    have argCount := countable.args n member
    have propCount := countable.members n member
    obtain ⟨y, numbered, rfl⟩ := List.mem_map.1 member
    obtain ⟨x, reached, same⟩ := numbering.exists_node compilable.rooted numbered
    rw [same] at argCount propCount ⊢
    obtain ⟨kind, code⟩ := CompiledNode.ofNode_codes (t.graph.positionOf order) (compilable.formed x reached)
    refine CompiledNode.sized kind code argCount propCount (fun r listed => ?_) fun p listed => ?_
    · obtain rfl | ⟨c, rfl⟩ := CompiledNode.ofNode_refs listed
      · exact absent
      · exact ref c
    · rw [CompiledNode.ofNode_props] at listed
      obtain ⟨q, property, rfl⟩ := List.mem_map.1 listed
      have issued : q.id < (t.compiledBy order).props.length := compilable.inside x reached q property
      exact CompiledProperty.sized (issued.trans countable.props) (ref q.type)

/-- The bytes tell compiled tables apart. -/
theorem Numbering.bytes_inj (numbering : t.Numbering order) (numbering' : u.Numbering order')
    (left : t.Compilable) (right : u.Compilable) (countable : (t.compiledBy order).Countable)
    (countable' : (u.compiledBy order').Countable)
    (same : (t.compiledBy order).bytes = (u.compiledBy order').bytes) : t.compiledBy order = u.compiledBy order' :=
  CompiledTable.toItem_injective
    ((numbering.sized left countable).encode_inj (numbering'.sized right countable') same)

end Table

end Gradual
