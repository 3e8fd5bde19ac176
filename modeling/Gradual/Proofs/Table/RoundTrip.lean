import Gradual.Proofs.Table.Document
import Gradual.Proofs.Table.Encoding
import Gradual.Proofs.Table.Linking

/-!
Compiled tables round-trip. However a table with well-formed types was built, it has a compiled form; the
bytes of that form read back as an isomorphic table, which compiles to the same bytes again.
-/
namespace Gradual

open Cbor

def Codec.Reads [Codec] (w : CompiledTable) : Prop := Codec.read? (Codec.write w) = some w

/-- No list is longer than a reader takes, and no text longer than its head can tell. -/
structure CompiledTable.Readable (w : CompiledTable) : Prop where
  props : w.props.length ≤ Item.maxItems
  names : w.names.length ≤ Item.maxItems
  nodes : w.nodes.length ≤ Item.maxItems
  args : ∀ n ∈ w.nodes, n.args.length ≤ Item.maxItems
  members : ∀ n ∈ w.nodes, n.props.length ≤ Item.maxItems
  texts : ∀ s ∈ w.props ++ w.names.map (·.name), (Bytes.ofString s).length < 256 ^ 8

/-- Forms with few names and nodes, and short texts, are within the limits of a reader. -/
theorem CompiledTable.Readable.of_short {w : CompiledTable}
    (few : w.props.length ≤ 100 ∧ w.names.length ≤ 100 ∧ w.nodes.length ≤ 100)
    (small : ∀ n ∈ w.nodes, n.args.length ≤ 100 ∧ n.props.length ≤ 100)
    (short : ∀ s ∈ w.props ++ w.names.map (·.name), s.utf8ByteSize ≤ 100) : w.Readable := by
  have limit : 100 ≤ Item.maxItems := by decide
  obtain ⟨props, names, nodes⟩ := few
  refine ⟨props.trans limit, names.trans limit, nodes.trans limit, ?_, ?_, ?_⟩
  · intro n member
    exact (small n member).1.trans limit
  · intro n member
    exact (small n member).2.trans limit
  · intro s member
    have size : (Bytes.ofString s).length = s.utf8ByteSize := by simp [Bytes.ofString_eq]
    rw [size]
    exact (short s member).trans_lt (by decide)

namespace Table

variable {t u : Table} {order : List TypeId}

/-- A table that can be compiled is compiled with a numbering of its types. -/
theorem Compilable.compile (compilable : t.Compilable) :
    ∃ order, t.Numbering order ∧ t.compile = .ok (t.compiledBy order) := by
  obtain ⟨order, found, once, complete⟩ := numbering_of_formed compilable.rooted compilable.formed
  have numbering : t.Numbering order := ⟨once, complete⟩
  refine ⟨order, numbering, ?_⟩
  have inside : ((t.compiledBy order).nodes.flatMap (·.props)).find? (fun p => t.props.size ≤ p.id) = none := by
    refine List.find?_eq_none.2 fun p member => ?_
    obtain ⟨n, node, here⟩ := List.mem_flatMap.1 member
    obtain ⟨y, numbered, rfl⟩ := List.mem_map.1 node
    obtain ⟨x, reached, same⟩ := numbering.exists_node compilable.rooted numbered
    rw [CompiledNode.ofNode_props, same] at here
    obtain ⟨q, property, rfl⟩ := List.mem_map.1 here
    simpa using compilable.inside x reached q property
  simp only [Table.compile, found, inside]

/-- A table that has a compiled form has numbers for all its properties. -/
theorem Ordered.compilable {w : CompiledTable} (ordered : t.Ordered)
    (formed : ∀ x, t.Reaches x → (t.graph.node x).WellFormed) (compiled : t.compile = .ok w) : t.Compilable := by
  obtain ⟨order, found, _, complete⟩ := numbering_of_formed ordered.rooted formed
  refine ⟨ordered, formed, fun x reached p property => ?_⟩
  simp only [Table.compile, found] at compiled
  split at compiled
  next => cases compiled
  next inside =>
    have here : ⟨p.id, t.graph.positionOf order p.type, p.readOnly⟩ ∈ (t.compiledBy order).nodes.flatMap (·.props) := by
      refine List.mem_flatMap.2 ⟨CompiledNode.ofNode (t.graph.positionOf order) (t.graph.node (t.graph.shared x)),
        List.mem_map_of_mem ((complete _).2 ⟨x, reached, rfl⟩), ?_⟩
      rw [CompiledNode.ofNode_props, t.graph.node_shared ordered.rooted]
      exact List.mem_map_of_mem property
    simpa using List.find?_eq_none.1 inside _ here

theorem Sound.compile (sound : t.Sound) : ∃ order, t.Numbering order ∧ t.compile = .ok (t.compiledBy order) :=
  sound.compilable.compile

/-- Positions and what else a node of the table writes fit their fields. -/
theorem fits_ofNode {position : Child → Int} {n : Node} (formed : n.WellFormed)
    (refs : ∀ c, Referable (position c)) (ids : ∀ p ∈ n.props, p.id < 4294967296)
    (argCount : (CompiledNode.ofNode position n).args.length ≤ Item.maxItems)
    (propCount : (CompiledNode.ofNode position n).props.length ≤ Item.maxItems) :
    (CompiledNode.ofNode position n).Fits := by
  have absent : Referable (-1) := ⟨by decide, by decide⟩
  have members : ∀ p ∈ (CompiledNode.ofNode position n).props, p.Fits := by
    rw [CompiledNode.ofNode_props]
    intro p member
    obtain ⟨q, inside, rfl⟩ := List.mem_map.1 member
    exact ⟨ids q inside, refs q.type⟩
  cases n with
  | odd => exact formed.elim
  | prim p =>
    have kind : p.code < 256 := by cases p <;> decide
    exact ⟨kind, by simp [CompiledNode.ofNode], argCount, by simp [CompiledNode.ofNode],
      absent, absent, propCount, members, absent⟩
  | closure sig =>
    have code : sig.code.code < 256 := by rcases formed.code with h | h | h <;> rw [h] <;> decide
    refine ⟨by simp [Node.kindCode], code, argCount, fun a member => ?_, refs _, refs _, propCount, members, absent⟩
    obtain ⟨c, _, rfl⟩ := List.mem_map.1 member
    exact refs c
  | object ps => exact ⟨by simp [Node.kindCode], by simp [CompiledNode.ofNode], argCount, by simp [CompiledNode.ofNode],
      absent, absent, propCount, members, absent⟩
  | array e | map e => exact ⟨by simp [Node.kindCode], by simp [CompiledNode.ofNode], argCount,
      by simp [CompiledNode.ofNode], absent, absent, propCount, members, refs e⟩

theorem Numbering.fits (numbering : t.Numbering order) (compilable : t.Compilable)
    (readable : (t.compiledBy order).Readable) : (t.compiledBy order).Fits := by
  have bound : Item.maxItems = 131072 := rfl
  have ref (c : Child) : Referable (t.graph.positionOf order c) := by
    cases c with
    | none => exact ⟨by simp [Graph.positionOf], by simp [Graph.positionOf]⟩
    | some x =>
      have count : order.length ≤ Item.maxItems := by simpa [compiledBy] using readable.nodes
      have := List.idxOf_le_length (a := t.graph.shared x) (l := order)
      simp only [positionOf_some, Graph.position, Referable]
      omega
  have texts := fun s member => readable.texts s (List.mem_append.2 member)
  refine ⟨by simp [compiledBy, compiledVersion], readable.props, fun s member => texts s (.inl member), readable.names,
    fun n member => ⟨texts _ (.inr (List.mem_map_of_mem member)), ?_⟩, readable.nodes, fun n member => ?_⟩
  · obtain ⟨entry, _, rfl⟩ := List.mem_map.1 member
    exact ref (some entry.2)
  · have argCount := readable.args n member
    have propCount := readable.members n member
    obtain ⟨y, numbered, rfl⟩ := List.mem_map.1 member
    obtain ⟨x, reached, same⟩ := numbering.exists_node compilable.rooted numbered
    rw [same] at argCount propCount ⊢
    refine fits_ofNode (compilable.formed x reached) ref (fun p property => ?_) argCount propCount
    have issued : p.id < (t.compiledBy order).props.length := compilable.inside x reached p property
    exact issued.trans_le (readable.props.trans (by decide))

/-- Data items read back if they are within the limits of a reader. -/
theorem Compilable.reads {w : CompiledTable} (compilable : t.Compilable) (compiled : t.compile = .ok w)
    (readable : w.Readable) : Codec.Reads w := by
  obtain ⟨order, numbering, compiled'⟩ := compilable.compile
  obtain rfl := Except.ok.inj (compiled.symm.trans compiled')
  exact CompiledTable.ofBytes?_bytes (numbering.fits compilable readable)

/-- The ways to build a table. Types may be added, and completed, at any time; the nodes of the primitive
types are there from the start. -/
inductive Built : Table → Prop where
  | ofNames (props : List String) : Built (Table.ofNames props)
  | intern {t : Table} (built : Built t) (name : String) : Built (t.intern name).1
  | define {t u : Table} (built : Built t) {name : String} {type : Child} (h : t.define name type = .ok u) : Built u
  | retype {t : Table} (built : Built t) {g : Graph} (rooted : g.Rooted) : Built { t with graph := g }

theorem Built.ordered (built : t.Built) : t.Ordered := by
  induction built with
  | ofNames props => exact ⟨Graph.primitives_rooted, NameTable.ofList_distinct props, .nil, by simp [Table.ofNames]⟩
  | intern _ name ih => exact ⟨ih.rooted, NameTable.intern_distinct ih.distinct name, ih.sorted, ih.named⟩
  | define _ h ih => exact ih.define h
  | retype _ rooted ih => exact ⟨rooted, ih.distinct, ih.sorted, ih.named⟩

theorem sound_of_source (source : (t.Built ∧ t.Typed) ∨ ∃ d : Document, d.table = .ok t) : t.Sound := by
  obtain ⟨built, typed⟩ | ⟨d, described⟩ := source
  · exact ⟨built.ordered, typed⟩
  · exact Document.table_sound described

/-- Packing and reading back. A table that was built in any way from well-formed types, or described by
a document, has a compiled form. With any codec that reads what it has written of the form, its bytes read
back as an isomorphic table, with the same bytes and the same digest. -/
theorem encode_decode [Codec] (source : (t.Built ∧ t.Typed) ∨ ∃ d : Document, d.table = .ok t) :
    ∃ w, t.compile = .ok w ∧ t.encode = .ok (Codec.write w) ∧ (Codec.Reads w → ∃ u φ,
      Table.decode (Codec.write w) = .ok u ∧ Isomorphic φ t u ∧ u.encode = .ok (Codec.write w) ∧
      u.digest = t.digest) := by
  have sound := sound_of_source source
  obtain ⟨order, numbering, compiled⟩ := sound.compile
  have encoded : t.encode = .ok (Codec.write (t.compiledBy order)) := by rw [Table.encode, compiled]; rfl
  refine ⟨_, compiled, encoded, fun reads => ⟨t.relinked order, t.placed order, ?_, numbering.isomorphic, ?_⟩⟩
  · rw [Table.decode, reads]
    simp only [numbering.link sound]
    rfl
  · have again := numbering.isomorphic.compile_eq sound.rooted
      (CompiledTable.link_sound (numbering.link sound)).rooted sound.formed
    have bytes : (t.relinked order).encode = t.encode := by rw [Table.encode, Table.encode, again]
    exact ⟨bytes.trans encoded, by rw [Table.digest, Table.digest, bytes]⟩

/-- Lists that refer to themselves, and their constructor, with a primitive node of its own. -/
def lists : Table where
  props := ⟨#["head", "tail"]⟩
  graph := .extended [.object [⟨0, some 8, false⟩, ⟨1, some 6, true⟩],
    .closure ⟨.constructor, [some 6, some 8], some 6, some 6⟩, .prim .int]
  tags := [("List", 6), ("Make", 7)]

theorem lists_built : lists.Built := by
  have props : (Table.ofNames ["head", "tail"]).props = lists.props := NameTable.ofList_of_nodup (by decide)
  have empty := (Built.ofNames ["head", "tail"]).retype (g := lists.graph) (Graph.extended_rooted _)
  rw [props] at empty
  have first : Table.define ⟨lists.props, lists.graph, []⟩ "Make" (some 7) =
      .ok ⟨lists.props, lists.graph, [("Make", 7)]⟩ := rfl
  have second : Table.define ⟨lists.props, lists.graph, [("Make", 7)]⟩ "List" (some 6) = .ok lists := rfl
  exact (empty.define first).define second

theorem lists_typed : lists.Typed := by
  refine typed_of_holds (fun x inside => TypeStore.holds_extended ?_ inside) (by decide)
  simp only [List.forall_mem_cons]
  refine ⟨?_, ?_, ?_, by simp⟩
  · exact TypeStore.holds_object (by decide) (by decide)
  · exact TypeStore.holds_closure (.inr (.inr rfl)) (by decide) ⟨6, rfl, by decide⟩ (by decide) ⟨6, rfl, by decide⟩
  · exact TypeStore.holds_prim _ .int

theorem lists_sound : lists.Sound := ⟨lists_built.ordered, lists_typed⟩

theorem lists_reads {w : CompiledTable} (compiled : lists.compile = .ok w) : Codec.Reads w := by
  have form : lists.compile = .ok ⟨1, ["head", "tail"], [⟨"List", 0⟩, ⟨"Make", 2⟩],
      [⟨8, 0, [], -1, -1, [⟨0, 1, false⟩, ⟨1, 0, true⟩], -1⟩, ⟨1, 0, [], -1, -1, [], -1⟩,
        ⟨7, 3, [0, 1], 0, 0, [], -1⟩]⟩ := by decide
  obtain rfl := Except.ok.inj (form.symm.trans compiled)
  exact lists_sound.compilable.reads compiled (.of_short (by decide) (by decide) (by decide))

/-- Data items of the lists. -/
theorem encode_decode_lists : lists.Built ∧ lists.Typed ∧ ∃ w, lists.compile = .ok w ∧ Codec.Reads w ∧
    ∃ u φ, Table.decode w.bytes = .ok u ∧ Isomorphic φ lists u ∧ u.encode = .ok w.bytes ∧ u.digest = lists.digest := by
  obtain ⟨w, compiled, _, rest⟩ := encode_decode (.inl ⟨lists_built, lists_typed⟩)
  exact ⟨lists_built, lists_typed, w, compiled, lists_reads compiled, rest (lists_reads compiled)⟩

def prototyped : Table where
  props := ⟨#[]⟩
  graph := .extended [.closure ⟨.function, [], some 0, some 0⟩]
  tags := [("F", 6)]

def prototypedForm : CompiledTable :=
  ⟨1, [], [⟨"F", 0⟩], [⟨7, 1, [], 1, 1, [], -1⟩, ⟨1, 0, [], -1, -1, [], -1⟩]⟩

def readPrototyped : Table where
  props := ⟨#[]⟩
  graph := .extended [.closure ⟨.function, [], some 0, none⟩, .prim .int]
  tags := [("F", 6)]

theorem prototyped_built : prototyped.Built := by
  have empty := (Built.ofNames []).retype (g := prototyped.graph) (Graph.extended_rooted _)
  have named : Table.define ⟨NameTable.ofList [], prototyped.graph, []⟩ "F" (some 6) = .ok prototyped := rfl
  exact empty.define named

theorem prototyped_compilable : prototyped.Compilable := by
  have closed : ∀ x, prototyped.Reaches x → x ∈ [0, 6] := by
    rintro x ⟨entry, member, path⟩
    cases List.mem_singleton.1 member
    induction path with
    | refl => decide
    | tail _ edge ih => exact (by decide : ∀ y ∈ [0, 6], ∀ z ∈ prototyped.graph.children y, z ∈ [0, 6]) _ ih _ edge
  refine ⟨prototyped_built.ordered, fun x reached => ?_, fun x reached => ?_⟩
  · exact (by decide : ∀ y ∈ [0, 6], (prototyped.graph.node y).WellFormed) x (closed x reached)
  · exact (by decide : ∀ y ∈ [0, 6], ∀ p ∈ (prototyped.graph.node y).props, p.id < prototyped.props.size) x
      (closed x reached)

theorem decode_prototypedForm : Table.decode prototypedForm.bytes = .ok readPrototyped := by
  have compiled : prototyped.compile = .ok prototypedForm := by decide
  have linked : prototypedForm.link = .ok readPrototyped := by decide +kernel
  have read : Codec.read? prototypedForm.bytes = some prototypedForm :=
    prototyped_compilable.reads compiled (.of_short (by decide) (by decide) (by decide))
  rw [Table.decode, read]
  simp only [linked]
  rfl

/-- Only constructors keep their prototypes. A function that has one is written with it and read without it. -/
theorem encode_decode_prototyped : prototyped.Built ∧ prototyped.Compilable ∧
    prototyped.encode = .ok prototypedForm.bytes ∧ Table.decode prototypedForm.bytes = .ok readPrototyped ∧
    (∀ φ, ¬ Isomorphic φ prototyped readPrototyped) ∧ readPrototyped.encode ≠ .ok prototypedForm.bytes := by
  refine ⟨prototyped_built, prototyped_compilable, rfl, decode_prototypedForm, fun φ iso => ?_, ?_⟩
  · have kept : φ 6 = 6 := (Prod.mk.inj (List.cons.inj iso.tags).1).2.symm
    have node := iso.node 6 ⟨("F", 6), List.mem_singleton_self _, .refl⟩
    rw [kept] at node
    have proto : (none : Child) = some (φ 0) := congrArg Signature.proto (Node.closure.inj node)
    cases proto
  · decide +kernel

end Table

end Gradual
