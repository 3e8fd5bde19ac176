import Gradual.Proofs.Outcome
import Gradual.Proofs.Property.Names
import Gradual.Proofs.Types.Relations
import Gradual.Types.Expr

/-!
Growing stores of types. Building a type adds nodes and names and leaves those that are there.
-/
namespace Gradual

namespace Graph

variable {g : Graph}

@[simp] theorem size_add (g : Graph) (n : Node) : (g.add n).1.size = g.size + 1 := by
  simp [add, size]

@[simp] theorem node_add_self (g : Graph) (n : Node) : (g.add n).1.node g.size = n := by
  simp [add, node, size, Array.getD]

theorem node_add_of_lt {t : TypeId} (old : t < g.size) (n : Node) : (g.add n).1.node t = g.node t := by
  have bound : t < g.nodes.size := old
  simp only [add, node]
  simp [Array.getD, Array.getElem_push, bound, Nat.lt_succ_of_lt bound]

@[simp] theorem size_define (g : Graph) (t : TypeId) (n : Node) : (g.define t n).size = g.size := by
  simp [define, size]

theorem node_define_self {t : TypeId} (inside : t < g.size) (n : Node) : (g.define t n).node t = n := by
  have bound : t < g.nodes.size := inside
  simp [define, node, Array.getD, bound]

theorem node_define_of_ne {t u : TypeId} (other : u ≠ t) (n : Node) : (g.define t n).node u = g.node u := by
  simp [define, node, Array.getD_eq_getD_getElem?, other.symm]

end Graph

namespace TypeStore

structure Grows (s s' : TypeStore) : Prop where
  size : s.graph.size ≤ s'.graph.size
  nodes : ∀ t < s.graph.size, s'.graph.node t = s.graph.node t
  issued : s.names.size ≤ s'.names.size
  names : ∀ id < s.names.size, s'.names.name id = s.names.name id
  distinct : s.names.Distinct → s'.names.Distinct

variable {s s' s'' : TypeStore}

@[refl] theorem Grows.refl (s : TypeStore) : s.Grows s := ⟨le_rfl, fun _ _ => rfl, le_rfl, fun _ _ => rfl, id⟩

theorem Grows.trans (h : s.Grows s') (k : s'.Grows s'') : s.Grows s'' where
  size := h.size.trans k.size
  nodes t old := (k.nodes t (old.trans_le h.size)).trans (h.nodes t old)
  issued := h.issued.trans k.issued
  names id old := (k.names id (old.trans_le h.issued)).trans (h.names id old)
  distinct := k.distinct ∘ h.distinct

theorem grows_add (s : TypeStore) (n : Node) : s.Grows { s with graph := (s.graph.add n).1 } where
  size := by simp
  nodes t old := Graph.node_add_of_lt old n
  issued := le_rfl
  names _ _ := rfl
  distinct := id

theorem grows_intern (s : TypeStore) (name : String) : s.Grows { s with names := (s.names.intern name).1 } where
  size := le_rfl
  nodes _ _ := rfl
  issued := NameTable.size_le_intern _ _
  names _ old := NameTable.name_intern_of_lt old name
  distinct distinct := NameTable.intern_distinct distinct name

end TypeStore

end Gradual
