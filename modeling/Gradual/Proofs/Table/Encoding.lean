import Gradual.Proofs.Cbor.RoundTrip
import Gradual.Table.Cbor

/-!
The bytes of a compiled table read back as that table, if its numbers fit their fields and its lists
are no longer than a reader takes.
-/
namespace Gradual

namespace Cbor.Item

theorem asRecord?_record (fields : List (Nat × Item)) :
    (record fields).asRecord? = some (fields.map fun (n, value) => (uint n, value)) := by
  simp [record, asRecord?, untagged, isFieldName]

theorem field_record (n : Nat) (fields : List (Nat × Item)) :
    field n (fields.map fun (n, value) => (uint n, value)) = (fields.lookup n).getD null := by
  induction fields with
  | nil => rfl
  | cons head fields ih =>
    obtain ⟨k, value⟩ := head
    by_cases same : k = n
    · simp [field, names, same]
    · have other : (n == k) = false := by simpa using Ne.symm same
      simpa [field, names, same, List.lookup_cons, other] using ih

theorem lookup_optional (present : Bool) (k n : Nat) (value : Item) :
    (optional present k value).lookup n = if k = n ∧ present then some value else none := by
  by_cases same : k = n
  · cases present <;> simp [optional, same]
  · have other : (n == k) = false := by simpa using Ne.symm same
    cases present <;> simp [optional, List.lookup_cons, same, other]

theorem length_optional_le (present : Bool) (k : Nat) (value : Item) : (optional present k value).length ≤ 1 := by
  cases present <;> simp [optional]

theorem eq_of_mem_optional {present : Bool} {k : Nat} {value : Item} {field : Nat × Item}
    (inside : field ∈ optional present k value) : field = (k, value) := by
  cases present <;> simp_all [optional]

theorem asNat?_uint {limit n : Nat} (fits : n < limit) : (uint n).asNat? limit = some n := by
  simp [asNat?, untagged, fits]

theorem asInt?_int {n : Int} (low : -9223372036854775808 ≤ n) (high : n < 9223372036854775808) :
    (int n).asInt? = some n := by
  unfold int
  split_ifs with sign
  · have fits : n.toNat < 9223372036854775808 := by omega
    simp [asInt?, untagged, asNat?_uint fits, sign]
  · have fits : (-1 - n).toNat < 9223372036854775808 := by omega
    simp only [asInt?, untagged, Option.bind_eq_bind, Option.bind_some, fits, if_true]
    congr 1
    omega

theorem asString?_string (s : String) : (string s).asString? = some s := by
  simp [string, asString?, untagged, textOf?, Bytes.toString?_ofString, String.join]

/-- A flag that is left out when it is not set reads as not set. -/
theorem asBool?_unlessFalse (b : Bool) : ((if b then some (bool true) else none).getD null).asBool? = some b := by
  cases b <;> rfl

theorem mapM_map_some {read : Item → Option α} {write : α → Item} {xs : List α}
    (each : ∀ x ∈ xs, read (write x) = some x) : (xs.map write).mapM read = some xs := by
  induction xs with
  | nil => rfl
  | cons x xs ih =>
    have tail := ih fun y inside => each y (List.mem_cons_of_mem _ inside)
    simp [List.mapM_cons, each x List.mem_cons_self, tail]

theorem asList?_list {read : Item → Option α} {write : α → Item} {xs : List α}
    (each : ∀ x ∈ xs, read (write x) = some x) : (list write xs).asList? read = some xs := by
  cases xs with
  | nil => rfl
  | cons x xs => exact mapM_map_some each

/-- A list that is left out when it is empty reads as the empty list. -/
theorem asList?_unlessEmpty [DecidableEq α] {read : Item → Option α} {write : α → Item} {xs : List α}
    (each : ∀ x ∈ xs, read (write x) = some x) :
    ((if xs = [] then none else some (list write xs)).getD null).asList? read = some xs := by
  split_ifs with empty
  · exact empty ▸ rfl
  · exact asList?_list each

/-- A number that is left out when it is zero reads as zero. -/
theorem asNat?_unlessZero {limit n : Nat} (fits : n < limit) :
    ((if n = 0 then none else some (uint n)).getD null).asNat? limit = some n := by
  split_ifs with zero
  · exact zero ▸ rfl
  · exact asNat?_uint fits

theorem Legible.int {level : Nat} {n : Int} (low : -9223372036854775808 ≤ n) (high : n < 9223372036854775808) :
    Legible level (int n) := by
  unfold Item.int
  split_ifs with sign
  · exact .uint (Nat.lt_of_lt_of_le (m := 9223372036854775808) (by omega) (by decide))
  · exact .negative (Nat.lt_of_lt_of_le (m := 9223372036854775809) (by omega) (by decide))

theorem Legible.null {level : Nat} : Legible level null := .simple (by decide)

theorem Legible.bool {level : Nat} (b : Bool) : Legible level (bool b) := by
  cases b <;> exact .simple (by decide)

theorem Legible.list {level : Nat} {write : α → Item} {xs : List α} (deep : level < maxLevels)
    (wide : xs.length ≤ maxItems) (each : ∀ x ∈ xs, Legible (level + 1) (write x)) : Legible level (list write xs) := by
  cases xs with
  | nil => exact .null
  | cons x xs =>
    refine .array deep (by simpa using wide) fun item inside => ?_
    obtain ⟨y, member, rfl⟩ := List.mem_map.1 inside
    exact each y member

theorem Legible.record {level : Nat} {fields : List (Nat × Item)} (deep : level < maxLevels) (few : fields.length ≤ 8)
    (each : ∀ field ∈ fields, field.1 < 8 ∧ Legible (level + 1) field.2) : Legible level (record fields) := by
  have bound : (8 : Nat) ≤ maxItems := by decide
  refine .map deep (by simpa using few.trans bound) (fun pair inside => ?_) fun pair inside => ?_
  all_goals
    obtain ⟨field, member, rfl⟩ := List.mem_map.1 inside
  · exact .uint (Nat.lt_trans (each field member).1 (by decide))
  · exact (each field member).2

end Cbor.Item

open Cbor Item

def Referable (n : Int) : Prop := -9223372036854775808 ≤ n ∧ n < 9223372036854775808

structure CompiledProperty.Fits (p : CompiledProperty) : Prop where
  id : p.id < 4294967296
  type : Referable p.type

structure CompiledNode.Fits (n : CompiledNode) : Prop where
  kind : n.kind < 256
  code : n.code < 256
  argCount : n.args.length ≤ maxItems
  args : ∀ a ∈ n.args, Referable a
  ret : Referable n.ret
  proto : Referable n.proto
  propCount : n.props.length ≤ maxItems
  props : ∀ p ∈ n.props, p.Fits
  elem : Referable n.elem

structure CompiledName.Fits (n : CompiledName) : Prop where
  name : (Bytes.ofString n.name).length < 256 ^ 8
  node : Referable n.node

structure CompiledTable.Fits (w : CompiledTable) : Prop where
  version : w.version < 256
  propCount : w.props.length ≤ maxItems
  props : ∀ s ∈ w.props, (Bytes.ofString s).length < 256 ^ 8
  nameCount : w.names.length ≤ maxItems
  names : ∀ n ∈ w.names, n.Fits
  nodeCount : w.nodes.length ≤ maxItems
  nodes : ∀ n ∈ w.nodes, n.Fits

theorem CompiledProperty.ofItem?_toItem {p : CompiledProperty} (fits : p.Fits) : ofItem? p.toItem = some p := by
  have type := asInt?_int fits.type.1 fits.type.2
  simp only [ofItem?, toItem, asRecord?_record, Option.bind_eq_bind, Option.bind_some, field_record,
    List.lookup_append, lookup_optional]
  simp [List.lookup_cons, asNat?_uint fits.id, type, asBool?_unlessFalse]

theorem CompiledName.ofItem?_toItem {n : CompiledName} (fits : n.Fits) : ofItem? n.toItem = some n := by
  have node := asInt?_int fits.node.1 fits.node.2
  simp only [ofItem?, toItem, asRecord?_record, Option.bind_eq_bind, Option.bind_some, field_record]
  simp [List.lookup_cons, asString?_string, node]

theorem CompiledNode.ofItem?_toItem {n : CompiledNode} (fits : n.Fits) : ofItem? n.toItem = some n := by
  have ref {r : Int} (h : Referable r) : (int r).asInt? = some r := asInt?_int h.1 h.2
  have args := asList?_unlessEmpty fun a inside => ref (fits.args a inside)
  have props := asList?_unlessEmpty fun p inside => CompiledProperty.ofItem?_toItem (fits.props p inside)
  simp only [ofItem?, toItem, asRecord?_record, Option.bind_eq_bind, Option.bind_some, field_record,
    List.lookup_append, lookup_optional]
  simp [List.lookup_cons, asNat?_uint fits.kind, asNat?_unlessZero fits.code, args, props, ref fits.ret,
    ref fits.proto, ref fits.elem]

theorem CompiledTable.ofItem?_toItem {w : CompiledTable} (fits : w.Fits) : ofItem? w.toItem = some w := by
  have props := asList?_list fun s (_ : s ∈ w.props) => asString?_string s
  have names := asList?_list fun n inside => CompiledName.ofItem?_toItem (fits.names n inside)
  have nodes := asList?_list fun n inside => CompiledNode.ofItem?_toItem (fits.nodes n inside)
  simp only [ofItem?, toItem, asRecord?_record, Option.bind_eq_bind, Option.bind_some, field_record]
  simp [List.lookup_cons, asNat?_uint fits.version, props, names, nodes]

theorem CompiledProperty.Fits.legible {p : CompiledProperty} (fits : p.Fits) {level : Nat} (deep : level < maxLevels) :
    Legible level p.toItem := by
  have count := length_optional_le p.readOnly 3 (.bool true)
  refine .record deep (by simp; omega) fun field inside => ?_
  simp only [List.mem_append, List.mem_cons, List.not_mem_nil, or_false] at inside
  obtain (rfl | rfl) | inside := inside
  · exact ⟨by simp, .uint (Nat.lt_trans fits.id (by decide))⟩
  · exact ⟨by simp, .int fits.type.1 fits.type.2⟩
  · exact eq_of_mem_optional inside ▸ ⟨by simp, .bool true⟩

theorem CompiledName.Fits.legible {n : CompiledName} (fits : n.Fits) {level : Nat} (deep : level < maxLevels) :
    Legible level n.toItem := by
  have name : Legible (level + 1) (.string n.name) := .text fits.name
  have node : Legible (level + 1) (.int n.node) := .int fits.node.1 fits.node.2
  exact .record deep (by simp) (by simp [name, node])

theorem CompiledNode.Fits.legible {n : CompiledNode} (fits : n.Fits) {level : Nat} (deep : level + 2 < maxLevels) :
    Legible level n.toItem := by
  have ref {r : Int} (h : Referable r) {level : Nat} : Legible level (.int r) := .int h.1 h.2
  have byte {k : Nat} (h : k < 256) : Legible (level + 1) (.uint k) := .uint (Nat.lt_trans h (by decide))
  have codeCount := length_optional_le (n.code != 0) 2 (.uint n.code)
  have argsCount := length_optional_le (!n.args.isEmpty) 3 (.list .int n.args)
  have propsCount := length_optional_le (!n.props.isEmpty) 6 (.list CompiledProperty.toItem n.props)
  refine .record (by omega) (by simp; omega) fun field inside => ?_
  simp only [List.mem_append, List.mem_cons, List.not_mem_nil, or_false] at inside
  obtain ((((rfl | inside) | inside) | rfl | rfl) | inside) | rfl := inside
  · exact ⟨by simp, byte fits.kind⟩
  · exact eq_of_mem_optional inside ▸ ⟨by simp, byte fits.code⟩
  · exact eq_of_mem_optional inside ▸
      ⟨by simp, .list (by omega) fits.argCount fun a member => ref (fits.args a member)⟩
  · exact ⟨by simp, ref fits.ret⟩
  · exact ⟨by simp, ref fits.proto⟩
  · exact eq_of_mem_optional inside ▸
      ⟨by simp, .list (by omega) fits.propCount fun p member => (fits.props p member).legible (by omega)⟩
  · exact ⟨by simp, ref fits.elem⟩

theorem CompiledTable.Fits.legible {w : CompiledTable} (fits : w.Fits) : Legible 0 w.toItem := by
  refine .record (by decide) (by simp) fun field inside => ?_
  simp only [List.mem_cons, List.not_mem_nil, or_false] at inside
  obtain rfl | rfl | rfl | rfl := inside
  · exact ⟨by simp, .uint (Nat.lt_trans fits.version (by decide))⟩
  · exact ⟨by simp, .list (by decide) fits.propCount fun s member => .text (fits.props s member)⟩
  · exact ⟨by simp, .list (by decide) fits.nameCount fun n member => (fits.names n member).legible (by decide)⟩
  · exact ⟨by simp, .list (by decide) fits.nodeCount fun n member => (fits.nodes n member).legible (by decide)⟩

/-- The bytes of a compiled table read back. -/
theorem CompiledTable.ofBytes?_bytes {w : CompiledTable} (fits : w.Fits) : ofBytes? w.bytes = some w := by
  simp [ofBytes?, bytes, fits.legible.parse?, ofItem?_toItem fits]

end Gradual
