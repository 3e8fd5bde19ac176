import Gradual.Proofs.Property.Names
import Gradual.Proofs.Table.Isomorphism
import Gradual.Proofs.Types.Store
import Gradual.Table.Document
import Mathlib.Tactic.IntervalCases

/-!
Sound tables. However a table is built, its property names have one id each and its names are in order,
each once; if its types have all their parts and its properties are numbered, it is sound, and a sound
table has a compiled form.
-/
namespace Gradual

theorem bind_eq_ok_iff {x : Except ε α} {f : α → Except ε β} {b : β} :
    x >>= f = .ok b ↔ ∃ a, x = .ok a ∧ f a = .ok b := by
  cases x <;> simp [bind, Except.bind]

namespace Table

variable {t u : Table} {name : String} {type : TypeId}

/-- Names are in order, each once, and none is taken by a primitive type; so are the property names. -/
structure Ordered (t : Table) : Prop where
  rooted : t.graph.Rooted
  distinct : t.props.Distinct
  sorted : t.tags.Pairwise (·.1 < ·.1)
  named : ∀ entry ∈ t.tags, entry.1 ≠ "" ∧ Prim.ofName? entry.1 = none

/-- The types of a table have all their parts, and a prototype only if they are constructors; their
properties are numbered by the table. -/
structure Typed (t : Table) : Prop where
  formed : ∀ x, t.Reaches x → (t.graph.node x).WellFormed
  proto : ∀ x s, t.Reaches x → t.graph.node x = .closure s → s.code ≠ .constructor → s.proto = none
  inside : ∀ x, t.Reaches x → ∀ p ∈ (t.graph.node x).props, p.id < t.props.size

structure Sound (t : Table) : Prop extends t.Ordered, t.Typed

/-- What compiling needs: the types have all their parts, and their properties are numbered by the table. -/
structure Compilable (t : Table) : Prop extends t.Ordered where
  formed : ∀ x, t.Reaches x → (t.graph.node x).WellFormed
  inside : ∀ x, t.Reaches x → ∀ p ∈ (t.graph.node x).props, p.id < t.props.size

theorem Sound.compilable {t : Table} (sound : t.Sound) : t.Compilable :=
  ⟨sound.toOrdered, sound.formed, sound.inside⟩

end Table

namespace TypeStore

variable {s s' : TypeStore} {n : Node}

/-- A node that has all its parts in the store, a prototype only if it is a constructor, and names for
its properties. -/
structure Holds (s : TypeStore) (n : Node) : Prop where
  formed : n.WellFormed
  proto : ∀ sig, n = .closure sig → sig.code ≠ .constructor → sig.proto = none
  named : ∀ p ∈ n.props, p.id < s.names.size
  parts : ∀ t ∈ n.children, t < s.graph.size

theorem Holds.grow (holds : s.Holds n) (grown : s.Grows s') : s'.Holds n where
  formed := holds.formed
  proto := holds.proto
  named p member := (holds.named p member).trans_le grown.issued
  parts t part := (holds.parts t part).trans_le grown.size

def Part (s : TypeStore) (c : Child) : Prop := ∃ t, c = some t ∧ t < s.graph.size

instance (s : TypeStore) : (c : Child) → Decidable (s.Part c)
  | none => .isFalse (by rintro ⟨_, absent, _⟩; cases absent)
  | some t => decidable_of_iff (t < s.graph.size)
      ⟨fun inside => ⟨t, rfl, inside⟩, by rintro ⟨_, same, inside⟩; cases same; exact inside⟩

theorem Part.grow {c : Child} (part : s.Part c) (grown : s.Grows s') : s'.Part c := by
  obtain ⟨t, rfl, inside⟩ := part
  exact ⟨t, rfl, inside.trans_le grown.size⟩

theorem holds_closure {sig : Signature} (code : sig.code = .function ∨ sig.code = .method ∨ sig.code = .constructor)
    (args : ∀ a ∈ sig.args, s.Part a) (ret : s.Part sig.ret) (receiver : sig.code ≠ .function → sig.args ≠ [])
    (proto : if sig.code = .constructor then s.Part sig.proto else sig.proto = none) : s.Holds (.closure sig) := by
  have isSome {c : Child} (part : s.Part c) : c.isSome := by
    obtain ⟨t, rfl, _⟩ := part
    rfl
  refine ⟨⟨code, fun a member => isSome (args a member), isSome ret, fun ctor => ?_, receiver⟩, ?_, by simp [Node.props], ?_⟩
  · rw [if_pos ctor] at proto
    exact isSome proto
  · rintro _ ⟨⟩ other
    rwa [if_neg other] at proto
  · have inside {c : Child} (part : s.Part c) {t : TypeId} (here : c = some t) : t < s.graph.size := by
      obtain ⟨u, rfl, inside⟩ := part
      cases here
      exact inside
    intro t member
    simp only [Node.children, List.mem_filterMap, List.cons_append, List.mem_cons, List.mem_append, List.not_mem_nil,
      or_false, id] at member
    obtain ⟨c, rfl | given | rfl, here⟩ := member
    · exact inside ret here
    · exact inside (args c given) here
    · split_ifs at proto with ctor
      · exact inside proto here
      · rw [proto] at here
        cases here

theorem holds_object {ps : List Property} (once : (ps.map (·.id)).Nodup)
    (each : ∀ p ∈ ps, p.id < s.names.size ∧ s.Part p.type) : s.Holds (.object ps) := by
  refine ⟨⟨once, fun p member => ?_⟩, by simp, fun p member => (each p member).1, fun t member => ?_⟩
  · obtain ⟨t, here, _⟩ := (each p member).2
    simp [here]
  · obtain ⟨p, inside, here⟩ := List.mem_filterMap.1 member
    obtain ⟨u, there, bound⟩ := (each p inside).2
    obtain rfl : u = t := by simpa [there] using here
    exact bound

theorem holds_element {e : Child} (part : s.Part e) : s.Holds (.array e) ∧ s.Holds (.map e) := by
  obtain ⟨t, rfl, inside⟩ := part
  constructor <;>
    exact ⟨rfl, by simp, by simp [Node.props], by simpa [Node.children] using inside⟩

theorem holds_prim (s : TypeStore) (p : Prim) : s.Holds (.prim p) :=
  ⟨trivial, by simp, by simp [Node.props], by simp [Node.children]⟩

theorem holds_of_primitive (s : TypeStore) {t : TypeId} (inside : t < Graph.primitives.size) :
    s.Holds (Graph.primitives.node t) := by
  have shape : ∃ p : Prim, Graph.primitives.node t = .prim p := by
    have bound : t < 6 := inside
    interval_cases t
    exacts [⟨.int, rfl⟩, ⟨.float, rfl⟩, ⟨.bool, rfl⟩, ⟨.string, rfl⟩, ⟨.void, rfl⟩, ⟨.top, rfl⟩]
  obtain ⟨p, prim⟩ := shape
  exact prim ▸ s.holds_prim p

end TypeStore

namespace Table

variable {t u : Table} {name : String} {type : TypeId}

section

variable (holds : ∀ x < t.graph.size, TypeStore.Holds ⟨t.graph, t.props⟩ (t.graph.node x))
include holds

/-- Where every node has its parts in the graph, no path leads out of it. -/
theorem lt_size_of_path {x y : TypeId} (path : t.graph.Reaches x y) (inside : x < t.graph.size) :
    y < t.graph.size := by
  induction path with
  | refl => exact inside
  | tail _ edge ih => exact (holds _ ih).parts _ edge

/-- A table all of whose nodes have their parts is sound in its types. -/
theorem typed_of_holds (roots : ∀ entry ∈ t.tags, entry.2 < t.graph.size) : t.Typed := by
  have inside (x : TypeId) (here : t.Reaches x) : x < t.graph.size := by
    obtain ⟨entry, member, path⟩ := here
    exact lt_size_of_path holds path (roots entry member)
  exact ⟨fun x here => (holds x (inside x here)).formed, fun x sig here => (holds x (inside x here)).proto sig,
    fun x here => (holds x (inside x here)).named⟩

end

theorem mem_insertTag {entry : String × TypeId} {tags : List (String × TypeId)} :
    entry ∈ insertTag name type tags ↔ entry = (name, type) ∨ entry ∈ tags := by
  induction tags with
  | nil => simp [insertTag]
  | cons head tags ih =>
    unfold insertTag
    split_ifs
    · simp
    · simp [ih]
      tauto

theorem insertTag_sorted {tags : List (String × TypeId)} (sorted : tags.Pairwise (·.1 < ·.1))
    (fresh : ∀ entry ∈ tags, entry.1 ≠ name) : (insertTag name type tags).Pairwise (·.1 < ·.1) := by
  induction tags with
  | nil => simp [insertTag]
  | cons head tags ih =>
    obtain ⟨other, x⟩ := head
    obtain ⟨least, rest⟩ := List.pairwise_cons.1 sorted
    unfold insertTag
    split_ifs with before
    · refine List.pairwise_cons.2 ⟨fun entry member => ?_, sorted⟩
      obtain rfl | later := List.mem_cons.1 member
      · exact before
      · exact String.lt_trans before (least entry later)
    · have after : other < name := by
        rcases String.le_total name other with le | le
        · exact absurd (String.le_antisymm (String.not_lt.1 before) le) (fresh (other, x) List.mem_cons_self)
        · exact String.not_le.1 fun ge => fresh (other, x) List.mem_cons_self (String.le_antisymm le ge)
      refine List.pairwise_cons.2 ⟨fun entry member => ?_,
        ih rest fun entry member => fresh entry (List.mem_cons_of_mem _ member)⟩
      obtain rfl | later := mem_insertTag.1 member
      · exact after
      · exact least entry later

/-- A name that comes after all others is put at the end. -/
theorem insertTag_of_last {tags : List (String × TypeId)} (last : ∀ entry ∈ tags, entry.1 < name) :
    insertTag name type tags = tags ++ [(name, type)] := by
  induction tags with
  | nil => rfl
  | cons head tags ih =>
    have after := String.lt_asymm (last head List.mem_cons_self)
    rw [insertTag, if_neg after, ih fun entry member => last entry (List.mem_cons_of_mem _ member)]
    rfl

theorem lookup_eq_none_iff {tags : List (String × TypeId)} :
    tags.lookup name = none ↔ ∀ entry ∈ tags, entry.1 ≠ name := by
  simp only [List.lookup_eq_none_iff, bne_iff_ne, ne_comm]

theorem define_eq_ok_iff {child : Child} : t.define name child = .ok u ↔
    name ≠ "" ∧ Prim.ofName? name = none ∧ (∀ entry ∈ t.tags, entry.1 ≠ name) ∧
      ∃ type, child = some type ∧ u = { t with tags := insertTag name type t.tags } := by
  unfold define
  split_ifs with empty primitive taken
  · simp [empty]
  · simp only [Option.isSome_iff_ne_none] at primitive
    simp [primitive]
  · rw [Option.isSome_iff_ne_none, ne_eq, lookup_eq_none_iff] at taken
    simp only [false_iff]
    tauto
  · rw [Bool.not_eq_true, Option.isSome_eq_false_iff, Option.isNone_iff_eq_none] at primitive taken
    rw [lookup_eq_none_iff] at taken
    cases child with
    | none => simp
    | some type => simpa [empty, primitive, eq_comm (a := u)] using fun _ x y member => taken (x, y) member

theorem Ordered.define {child : Child} (ordered : t.Ordered) (h : t.define name child = .ok u) : u.Ordered := by
  obtain ⟨nonempty, free, fresh, type, rfl, rfl⟩ := define_eq_ok_iff.1 h
  refine ⟨ordered.rooted, ordered.distinct, insertTag_sorted ordered.sorted fresh, fun entry member => ?_⟩
  obtain rfl | old := mem_insertTag.1 member
  · exact ⟨nonempty, free⟩
  · exact ordered.named entry old

theorem Ordered.defineAll {entries : List (String × TypeId)} (ordered : t.Ordered)
    (h : t.defineAll entries = .ok u) : u.Ordered := by
  induction entries generalizing t with
  | nil => cases h; exact ordered
  | cons entry entries ih =>
    obtain ⟨next, first, rest⟩ := bind_eq_ok_iff.1 h
    exact ih (ordered.define first) rest

/-- Names that are defined in turn are distinct, and only they are added. -/
theorem defineAll_eq_ok {entries : List (String × TypeId)} (h : t.defineAll entries = .ok u) :
    u.props = t.props ∧ u.graph = t.graph ∧ (∀ entry ∈ u.tags, entry ∈ t.tags ∨ entry ∈ entries) ∧
      (entries.map Prod.fst).Nodup ∧ ∀ entry ∈ entries, ∀ old ∈ t.tags, old.1 ≠ entry.1 := by
  induction entries generalizing t with
  | nil => cases h; simp
  | cons entry entries ih =>
    obtain ⟨next, first, rest⟩ := bind_eq_ok_iff.1 h
    obtain ⟨_, _, fresh, type, same, rfl⟩ := define_eq_ok_iff.1 first
    obtain rfl : entry.2 = type := Option.some.inj same
    obtain ⟨props, graph, only, once, apart⟩ := ih rest
    refine ⟨props, graph, fun e member => ?_, List.nodup_cons.2 ⟨fun member => ?_, once⟩,
      List.forall_mem_cons.2 ⟨fresh, fun e member old inside => ?_⟩⟩
    · obtain old | later := only e member
      · obtain rfl | old := mem_insertTag.1 old
        · exact .inr List.mem_cons_self
        · exact .inl old
      · exact .inr (List.mem_cons_of_mem _ later)
    · obtain ⟨e, inside, same⟩ := List.mem_map.1 member
      exact apart e inside (entry.1, entry.2) (mem_insertTag.2 (.inl rfl)) same.symm
    · exact apart e member old (mem_insertTag.2 (.inr inside))

/-- Names that come in order are put one after the other. -/
theorem defineAll_of_sorted {entries : List (String × TypeId)} (sorted : (t.tags ++ entries).Pairwise (·.1 < ·.1))
    (named : ∀ entry ∈ entries, entry.1 ≠ "" ∧ Prim.ofName? entry.1 = none) :
    t.defineAll entries = .ok { t with tags := t.tags ++ entries } := by
  induction entries generalizing t with
  | nil => simp [defineAll]
  | cons entry entries ih =>
    obtain ⟨⟨nonempty, free⟩, named⟩ := List.forall_mem_cons.1 named
    have last : ∀ old ∈ t.tags, old.1 < entry.1 := fun old member =>
      (List.pairwise_append.1 sorted).2.2 old member entry List.mem_cons_self
    have first : t.define entry.1 (some entry.2) = .ok { t with tags := t.tags ++ [entry] } :=
      define_eq_ok_iff.2 ⟨nonempty, free, fun old member same => String.lt_irrefl _ (same ▸ last old member), _, rfl,
        by rw [insertTag_of_last last]⟩
    have rest := ih (t := { t with tags := t.tags ++ [entry] }) (by simpa using sorted) named
    exact bind_eq_ok_iff.2 ⟨_, first, by simpa using rest⟩

end Table

end Gradual
