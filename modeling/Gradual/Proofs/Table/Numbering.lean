import Gradual.Proofs.Types.Relations
import Gradual.Table.Compiled
import Mathlib.Algebra.BigOperators.Intervals
import Mathlib.Data.Finset.Basic

/-!
Depth-first numbering. From types that have all their parts the numbering comes to an end within its
steps, numbers each node once, and reaches exactly the nodes that the types are made of, each primitive
type as its shared node.
-/
namespace Gradual

theorem mapM_eq_filterMap {f : α → Option β} {xs : List α} (all : ∀ x ∈ xs, (f x).isSome) :
    xs.mapM f = some (xs.filterMap f) := by
  induction xs with
  | nil => rfl
  | cons x xs ih =>
    obtain ⟨y, read⟩ := Option.isSome_iff_exists.1 (all x List.mem_cons_self)
    have tail := ih fun z inside => all z (List.mem_cons_of_mem _ inside)
    simp [List.mapM_cons, read, tail]

/-- A node that has all its parts is numbered with exactly the types it refers to. -/
theorem Node.WellFormed.parts? {n : Node} (formed : n.WellFormed) :
    ∃ parts, n.parts? = some parts ∧ parts.Perm n.children := by
  cases n with
  | odd => exact formed.elim
  | prim => exact ⟨[], rfl, .refl _⟩
  | closure s =>
    obtain ⟨ret, result⟩ := Option.isSome_iff_exists.1 formed.ret
    have read := mapM_eq_filterMap (f := id) formed.args
    refine ⟨s.args.filterMap id ++ ret :: s.proto.toList, by simp [Node.parts?, read, result], ?_⟩
    have children : (Node.closure s).children = ret :: (s.args.filterMap id ++ s.proto.toList) := by
      cases proto : s.proto <;> simp [Node.children, result, proto]
    rw [children]
    exact List.perm_middle
  | object ps => exact ⟨_, mapM_eq_filterMap formed.2, .refl _⟩
  | array e | map e =>
    obtain ⟨t, rfl⟩ := Option.isSome_iff_exists.1 formed
    exact ⟨[t], rfl, .refl _⟩

theorem Node.WellFormed.mem_parts {n : Node} (formed : n.WellFormed) {parts : List TypeId}
    (read : n.parts? = some parts) {t : TypeId} : t ∈ parts ↔ t ∈ n.children := by
  obtain ⟨parts', read', perm⟩ := formed.parts?
  obtain rfl : parts' = parts := Option.some.inj (read'.symm.trans read)
  exact perm.mem_iff

namespace Graph

variable {g : Graph}

def Rooted (g : Graph) : Prop := ∀ p : Prim, g.node p.typeId = .prim p

theorem primitives_rooted : primitives.Rooted := by
  rintro ⟨⟩ <;> rfl

theorem shared_of_prim {t : TypeId} {p : Prim} (prim : g.node t = .prim p) : g.shared t = p.typeId := by
  simp [shared, prim]

theorem shared_of_not_prim {t : TypeId} (other : ∀ p, g.node t ≠ .prim p) : g.shared t = t := by
  unfold shared
  split
  · next p prim => exact absurd prim (other p)
  · rfl

/-- Sharing changes which node stands for a type, not its shape. -/
theorem node_shared (rooted : g.Rooted) (t : TypeId) : g.node (g.shared t) = g.node t := by
  unfold shared
  split
  · next p prim => rw [rooted p, prim]
  · rfl

def unseen (g : Graph) (order : List TypeId) : Nat :=
  ∑ t ∈ Finset.range g.size \ order.toFinset, (g.children t).length

theorem unseen_nil (g : Graph) : g.unseen [] = g.edgeCount := by
  have counted (nodes : List Node) (start : Nat) :
      nodes.foldl (fun n node => n + node.children.length) start =
        start + ∑ i ∈ Finset.range nodes.length, ((nodes.getD i (.odd 0)).children).length := by
    induction nodes generalizing start with
    | nil => simp
    | cons node nodes ih =>
      rw [List.foldl_cons, ih, List.length_cons, Finset.sum_range_succ']
      simp
      omega
  have total := counted g.nodes.toList 0
  simp only [unseen, edgeCount, List.toFinset_nil, Finset.sdiff_empty, ← Array.foldl_toList, total]
  simp [children, node, size]

theorem unseen_append {order : List TypeId} {t : TypeId} (inside : t < g.size) (fresh : t ∉ order) :
    g.unseen (order ++ [t]) + (g.children t).length = g.unseen order := by
  have member : t ∈ Finset.range g.size \ order.toFinset := by simp [inside, fresh]
  have rest : Finset.range g.size \ (order ++ [t]).toFinset = (Finset.range g.size \ order.toFinset).erase t := by
    ext u
    simp
    tauto
  rw [unseen, unseen, rest, Finset.sum_erase_add _ _ member]

/-- The state of a numbering: nothing has two numbers, everything numbered or pending is one of `nodes`,
and the parts of what is numbered are numbered or pending. -/
structure Numbered (g : Graph) (nodes : TypeId → Prop) (pending order : List TypeId) : Prop where
  once : order.Nodup
  inside : ∀ t ∈ order ++ pending, nodes t
  closed : ∀ t ∈ order, ∀ u ∈ g.children t, g.shared u ∈ order ++ pending

variable {nodes : TypeId → Prop} {fuel : Nat} {pending order out : List TypeId} {t : TypeId}

theorem Numbered.skip (state : g.Numbered nodes (t :: pending) order) (seen : t ∈ order) :
    g.Numbered nodes pending order where
  once := state.once
  inside u member := state.inside u (by simp only [List.mem_append, List.mem_cons] at member ⊢; tauto)
  closed u numbered v edge := by
    have := state.closed u numbered v edge
    simp only [List.mem_append, List.mem_cons] at this ⊢
    rcases this with here | rfl | later
    · exact .inl here
    · exact .inl seen
    · exact .inr later

theorem Numbered.visit (state : g.Numbered nodes (t :: pending) order) (fresh : t ∉ order) {parts : List TypeId}
    (same : ∀ u, u ∈ parts ↔ u ∈ g.children t) (kept : ∀ u ∈ g.children t, nodes (g.shared u)) :
    g.Numbered nodes (parts.map g.shared ++ pending) (order ++ [t]) where
  once := by
    rw [List.nodup_append]
    exact ⟨state.once, by simp, by rintro a here b there rfl; simp_all⟩
  inside u member := by
    simp only [List.mem_append, List.mem_map, List.mem_singleton] at member
    obtain (numbered | rfl) | ⟨v, part, rfl⟩ | later := member
    · exact state.inside u (by simp [numbered])
    · exact state.inside u (by simp)
    · exact kept v ((same v).1 part)
    · exact state.inside u (by simp [later])
  closed u numbered v edge := by
    simp only [List.mem_append, List.mem_map, List.mem_singleton] at numbered ⊢
    obtain numbered | rfl := numbered
    · have := state.closed u numbered v edge
      simp only [List.mem_append, List.mem_cons] at this
      tauto
    · exact .inr (.inl ⟨v, (same v).2 edge, rfl⟩)

theorem Numbered.number (state : g.Numbered nodes pending order)
    (whole : ∀ t, nodes t → (g.node t).WellFormed ∧ ∀ u ∈ g.children t, nodes (g.shared u))
    (enough : pending.length + g.unseen order ≤ fuel) :
    ∃ out, g.number fuel pending order = some out ∧ g.Numbered nodes [] out ∧ ∀ t ∈ order ++ pending, t ∈ out := by
  induction fuel generalizing pending order with
  | zero =>
    obtain rfl : pending = [] := List.length_eq_zero_iff.1 (by omega)
    exact ⟨order, by simp [Graph.number], state, by simp⟩
  | succ fuel ih =>
    cases pending with
    | nil => exact ⟨order, by simp [Graph.number], state, by simp⟩
    | cons t pending =>
      rw [List.length_cons] at enough
      unfold Graph.number
      split_ifs with seen
      · obtain ⟨out, found, done, kept⟩ := ih (state.skip seen) (by omega)
        refine ⟨out, found, done, fun u member => kept u ?_⟩
        simp only [List.mem_append, List.mem_cons] at member ⊢
        rcases member with here | rfl | later
        · exact .inl here
        · exact .inl seen
        · exact .inr later
      · obtain ⟨formed, parts'⟩ := whole t (state.inside t (by simp))
        obtain ⟨parts, read, perm⟩ := formed.parts?
        have spent := unseen_append (lt_size_of_wellFormed formed) seen
        have count : (g.children t).length = parts.length := perm.length_eq.symm
        obtain ⟨out, found, done, kept⟩ := ih (state.visit seen (fun u => perm.mem_iff) parts')
          (by rw [List.length_append, List.length_map]; omega)
        refine ⟨out, by simp [read, found], done, fun u member => kept u ?_⟩
        simp only [List.mem_append, List.mem_cons] at member ⊢
        tauto

/-- The numbering of well-formed types succeeds and has each of their nodes once. -/
theorem numbering_of_wellFormed (rooted : g.Rooted) {types : List TypeId} (formed : ∀ t ∈ types, g.WellFormed t) :
    ∃ order, g.numbering (types.map g.shared) = some order ∧ order.Nodup ∧
      ∀ t, t ∈ order ↔ ∃ r ∈ types, ∃ u, g.Reaches r u ∧ g.shared u = t := by
  let nodes (t : TypeId) : Prop := ∃ r ∈ types, ∃ u, g.Reaches r u ∧ g.shared u = t
  have start : g.Numbered nodes (types.map g.shared) [] := by
    refine ⟨.nil, fun t member => ?_, by simp⟩
    obtain ⟨r, root, rfl⟩ := List.mem_map.1 member
    exact ⟨r, root, r, .refl, rfl⟩
  have whole (t : TypeId) (here : nodes t) :
      (g.node t).WellFormed ∧ ∀ u ∈ g.children t, nodes (g.shared u) := by
    obtain ⟨r, root, u, path, rfl⟩ := here
    rw [children, node_shared rooted]
    exact ⟨formed r root u path, fun v edge => ⟨r, root, v, path.tail edge, rfl⟩⟩
  have enough : (types.map g.shared).length + g.unseen [] ≤ (types.map g.shared).length + g.edgeCount := by
    rw [unseen_nil]
  obtain ⟨order, found, done, roots⟩ := start.number whole enough
  refine ⟨order, found, done.once, fun t => ⟨fun member => done.inside t (by simpa using member), ?_⟩⟩
  rintro ⟨r, root, u, path, rfl⟩
  induction path with
  | refl => exact roots _ (by simpa using ⟨r, root, rfl⟩)
  | @tail u v path edge ih =>
    have := done.closed _ ih v (by rwa [children, node_shared rooted])
    simpa using this

/-- Steps left over change nothing. -/
theorem number_mono (h : g.number fuel pending order = some out) (le : fuel ≤ more) :
    g.number more pending order = some out := by
  induction fuel generalizing more pending order with
  | zero =>
    cases pending with
    | nil => simpa [Graph.number] using h
    | cons => simp [Graph.number] at h
  | succ fuel ih =>
    cases pending with
    | nil => simpa [Graph.number] using h
    | cons t pending =>
      obtain ⟨more, rfl⟩ : ∃ n, more = n + 1 := ⟨more - 1, by omega⟩
      unfold Graph.number at h ⊢
      split_ifs at h ⊢ with seen
      · exact ih h (by omega)
      · obtain ⟨parts, read, rest⟩ := Option.bind_eq_some_iff.1 h
        simpa [read] using ih rest (by omega)

end Graph

end Gradual
