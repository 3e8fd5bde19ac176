import Gradual.Proofs.Table.Building
import Gradual.Proofs.Types.Store

/-!
Documents make sound tables. While a document is read, some of the reserved nodes are still blank and
every other node has all its parts; a definition adds nodes that refer to what is there, and fills one
blank. When all definitions are read no blank is left.
-/
namespace Gradual

open Act

namespace TypeStore

variable {s s' : TypeStore} {n : Node} {blank : TypeId → Prop}

structure Drafted (s : TypeStore) (blank : TypeId → Prop) : Prop where
  rooted : s.graph.Rooted
  distinct : s.names.Distinct
  nodes : ∀ t < s.graph.size, blank t ∨ s.Holds (s.graph.node t)

theorem prim_lt_size (rooted : s.graph.Rooted) (p : Prim) : p.typeId < s.graph.size :=
  Graph.lt_size_of_wellFormed (by rw [rooted p]; trivial)

theorem drafted_ofNames (names : List String) : (ofNames names).Drafted fun _ => False where
  rooted := Graph.primitives_rooted
  distinct := NameTable.ofList_distinct names
  nodes _ inside := .inr (holds_of_primitive _ inside)

theorem Drafted.grow (drafted : s.Drafted blank) (grown : s.Grows s')
    (added : ∀ t, s.graph.size ≤ t → t < s'.graph.size → s'.Holds (s'.graph.node t)) : s'.Drafted blank where
  rooted p := by rw [grown.nodes _ (prim_lt_size drafted.rooted p), drafted.rooted p]
  distinct := grown.distinct drafted.distinct
  nodes t inside := by
    by_cases old : t < s.graph.size
    · refine (drafted.nodes t old).imp_right fun holds => ?_
      rw [grown.nodes t old]
      exact holds.grow grown
    · exact .inr (added t (Nat.le_of_not_lt old) inside)

/-- Building keeps the draft and ends, if it does not fail, as `ok` says. -/
def Yields (blank : TypeId → Prop) (act : DocumentBuilder α) (s : TypeStore) (ok : α → TypeStore → Prop) : Prop :=
  Ends act s (fun a s' => s.Grows s' ∧ s'.Drafted blank ∧ ok a s') fun _ _ => True

variable {α β : Type} {ok : α → TypeStore → Prop}

theorem Yields.bind {act : DocumentBuilder β} {next : β → DocumentBuilder α} {mid : β → TypeStore → Prop}
    (first : Yields blank act s mid)
    (rest : ∀ b s', s.Grows s' → s'.Drafted blank → mid b s' → Yields blank (next b) s' ok) :
    Yields blank (act >>= next) s ok := by
  refine (ends_bind ..).2 (first.mono ?_ fun _ _ h => h)
  rintro b s' ⟨grown, drafted, here⟩
  exact (rest b s' grown drafted here).mono (fun _ _ ⟨grown', h⟩ => ⟨grown.trans grown', h⟩) fun _ _ h => h

theorem Yields.pure {a : α} (drafted : s.Drafted blank) (h : ok a s) : Yields blank (pure a) s ok :=
  ⟨.refl s, drafted, h⟩

theorem Yields.throw (e : TableError) : Yields blank (throw e : DocumentBuilder α) s ok := trivial

theorem ends_add {ok : TypeId → TypeStore → Prop} {err : TableError → TypeStore → Prop} (n : Node) :
    Ends (DocumentBuilder.add n) s ok err ↔ ok s.graph.size { s with graph := (s.graph.add n).1 } := Iff.rfl

theorem yields_add (drafted : s.Drafted blank) (holds : s.Holds n) :
    Yields blank (DocumentBuilder.add n) s fun t s' => s'.Holds (s'.graph.node t) := by
  have grown := s.grows_add n
  have here : (s.graph.add n).1.node s.graph.size = n := Graph.node_add_self ..
  have added := holds.grow grown
  refine (ends_add n).2 ⟨grown, drafted.grow grown fun t old inside => ?_, ?_⟩
  · have bound : t < (s.graph.add n).1.size := inside
    obtain rfl : t = s.graph.size := by rw [Graph.size_add] at bound; omega
    exact here.symm ▸ added
  · beta_reduce
    rwa [here]

theorem yields_intern (drafted : s.Drafted blank) (name : String) :
    Yields blank (DocumentBuilder.intern name) s
      fun id s' => id < s'.names.size ∧ s'.names.name id = name := by
  have grown := s.grows_intern name
  exact ⟨grown, drafted.grow grown fun t old inside => absurd inside (Nat.not_lt.2 old),
    NameTable.intern_id_lt .., NameTable.name_intern ..⟩

end TypeStore

open TypeStore DocumentBuilder

def TypeScope.Known (scope : TypeScope) (s : TypeStore) : Prop := ∀ entry ∈ scope, entry.2 < s.graph.size

theorem TypeScope.Known.grow {scope : TypeScope} {s s' : TypeStore} (known : scope.Known s) (grown : s.Grows s') :
    scope.Known s' :=
  fun entry member => (known entry member).trans_le grown.size

theorem TypeScope.Known.lookup {scope : TypeScope} {s : TypeStore} (known : scope.Known s) {name : String}
    {t : TypeId} (found : scope.lookup name = some t) : t < s.graph.size := by
  obtain ⟨before, after, rfl, _⟩ := List.lookup_eq_some_iff.1 found
  exact known (name, t) (by simp)

mutual

theorem Reference.yields {scope : TypeScope} {blank : TypeId → Prop} (place : String) :
    (r : Reference) → {s : TypeStore} → s.Drafted blank → scope.Known s →
      Yields blank (r.build scope place) s fun t s' => s'.Part (some t)
  | .inline d, s, drafted, known => by
    rw [Reference.build]
    refine (Definition.yields place d drafted known).mono ?_ fun _ _ h => h
    rintro t s' ⟨grown, drafted, holds⟩
    exact ⟨grown, drafted, t, rfl, Graph.lt_size_of_wellFormed holds.formed⟩
  | .named name, s, drafted, known => by
    rw [Reference.build]
    split
    · next p _ => exact .pure drafted ⟨_, rfl, prim_lt_size drafted.rooted p⟩
    · split
      · next t found => exact .pure drafted ⟨t, rfl, known.lookup found⟩
      · exact .throw _

theorem Definition.yields {scope : TypeScope} {blank : TypeId → Prop} (place : String) :
    (d : Definition) → {s : TypeStore} → s.Drafted blank → scope.Known s →
      Yields blank (d.build scope place) s fun t s' => s'.Holds (s'.graph.node t)
  | .mk kind props recv args ret proto elem, s, drafted, known => by
    unfold Definition.build
    split
    · next p _ =>
      refine .pure drafted ?_
      rw [drafted.rooted p]
      exact holds_prim s p
    split
    · -- object
      refine (membersYield place [] props drafted known).bind fun ps s₁ _ drafted each => ?_
      exact yields_add drafted (holds_object each.2.1 each.1)
    · -- array
      refine (partYields _ elem drafted known).bind fun t s₁ _ drafted part => ?_
      exact yields_add drafted (holds_element part).1
    · -- map
      refine (partYields _ elem drafted known).bind fun t s₁ _ drafted part => ?_
      exact yields_add drafted (holds_element part).2
    · -- function
      refine (partYields _ ret drafted known).bind fun r s₁ g₁ drafted result => ?_
      refine (argumentsYield place 0 args drafted (known.grow g₁)).bind fun cs s₂ g₂ drafted given => ?_
      split
      · exact .throw _
      · exact yields_add drafted (holds_closure (.inl rfl) given (result.grow g₂) (by simp) (by simp))
    · -- method
      refine (partYields _ ret drafted known).bind fun r s₁ g₁ drafted result => ?_
      refine (argumentsYield place 0 args drafted (known.grow g₁)).bind fun cs s₂ g₂ drafted given => ?_
      refine (partYields _ recv drafted ((known.grow g₁).grow g₂)).bind fun o s₃ g₃ drafted receiver => ?_
      split
      · exact .throw _
      · refine yields_add drafted (holds_closure (.inr (.inl rfl)) ?_ (result.grow (g₂.trans g₃)) (by simp) (by simp))
        exact List.forall_mem_cons.2 ⟨receiver, fun c member => (given c member).grow g₃⟩
    · -- constructor
      refine (partYields _ ret drafted known).bind fun r s₁ g₁ drafted result => ?_
      refine (argumentsYield place 0 args drafted (known.grow g₁)).bind fun cs s₂ g₂ drafted given => ?_
      refine (partYields _ recv drafted ((known.grow g₁).grow g₂)).bind fun o s₃ g₃ drafted receiver => ?_
      refine (partYields _ proto drafted (((known.grow g₁).grow g₂).grow g₃)).bind fun q s₄ g₄ drafted prototype => ?_
      refine yields_add drafted (holds_closure (.inr (.inr rfl)) ?_ (result.grow (g₂.trans (g₃.trans g₄))) (by simp)
        (by simpa using prototype))
      exact List.forall_mem_cons.2 ⟨receiver.grow g₄, fun c member => (given c member).grow (g₃.trans g₄)⟩
    · exact .throw _
    · exact .throw _

theorem partYields {scope : TypeScope} {blank : TypeId → Prop} (place : String) :
    (r : Option Reference) → {s : TypeStore} → s.Drafted blank → scope.Known s →
      Yields blank (buildPart scope place r) s fun t s' => s'.Part (some t)
  | none, s, _, _ => by rw [buildPart]; exact .throw _
  | some r, s, drafted, known => by
    rw [buildPart]
    exact Reference.yields place r drafted known

theorem argumentsYield {scope : TypeScope} {blank : TypeId → Prop} (place : String) (index : Nat) :
    (rs : List Reference) → {s : TypeStore} → s.Drafted blank → scope.Known s →
      Yields blank (buildArguments scope place index rs) s fun cs s' => ∀ c ∈ cs, s'.Part c
  | [], s, drafted, _ => by rw [buildArguments]; exact .pure drafted (by simp)
  | r :: rs, s, drafted, known => by
    rw [buildArguments]
    refine (Reference.yields _ r drafted known).bind fun t s₁ g₁ drafted part => ?_
    refine (argumentsYield place (index + 1) rs drafted (known.grow g₁)).bind fun cs s₂ g₂ drafted each => ?_
    exact .pure drafted (List.forall_mem_cons.2 ⟨part.grow g₂, each⟩)

/-- The ids are distinct because the names are, and a name keeps its id. -/
theorem membersYield {scope : TypeScope} {blank : TypeId → Prop} (place : String) (seen : List String) :
    (ms : List Member) → {s : TypeStore} → s.Drafted blank → scope.Known s →
      Yields blank (buildMembers scope place seen ms) s fun ps s' =>
        (∀ p ∈ ps, p.id < s'.names.size ∧ s'.Part p.type) ∧ (ps.map (·.id)).Nodup ∧
          ∀ p ∈ ps, s'.names.name p.id ∉ seen
  | [], s, drafted, _ => by rw [buildMembers]; exact .pure drafted (by simp)
  | .mk name type readOnly :: ms, s, drafted, known => by
    rw [buildMembers]
    split
    · exact .throw _
    split
    · exact .throw _
    next fresh =>
    refine (Reference.yields _ type drafted known).bind fun t s₁ g₁ drafted part => ?_
    refine (yields_intern drafted name).bind fun id s₂ g₂ drafted ⟨issued, here⟩ => ?_
    refine (membersYield place (name :: seen) ms drafted ((known.grow g₁).grow g₂)).bind
      fun ps s₃ g₃ drafted ⟨each, once, unseen⟩ => ?_
    have named : s₃.names.name id = name := (g₃.names id issued).trans here
    refine .pure drafted ⟨List.forall_mem_cons.2 ⟨⟨issued.trans_le g₃.issued, part.grow (g₂.trans g₃)⟩, each⟩,
      List.nodup_cons.2 ⟨fun member => ?_, once⟩, List.forall_mem_cons.2 ⟨named ▸ fresh, fun p member => ?_⟩⟩
    · obtain ⟨p, inside, same⟩ := List.mem_map.1 member
      exact unseen p inside (by rw [same, named]; exact List.mem_cons_self)
    · exact fun old => unseen p member (List.mem_cons_of_mem _ old)

end

namespace Document

variable {s : TypeStore} {scope : TypeScope} {entries : List (String × Option Definition)}

def Blank (scope : TypeScope) (entries : List (String × Option Definition)) (t : TypeId) : Prop :=
  ∃ entry ∈ entries, scope.lookup entry.1 = some t

structure Reserved (s : TypeStore) (entries : List (String × Option Definition)) (scope : TypeScope)
    (s' : TypeStore) : Prop where
  names : scope.map Prod.fst = entries.map Prod.fst
  grown : s.Grows s'
  within : ∀ entry ∈ scope, s.graph.size ≤ entry.2 ∧ entry.2 < s'.graph.size
  covered : ∀ t, s.graph.size ≤ t → t < s'.graph.size → ∃ entry ∈ scope, entry.2 = t
  distinct : (scope.map Prod.snd).Nodup

theorem ends_reserve (entries : List (String × Option Definition)) (s : TypeStore) :
    Ends (reserve entries) s
      (fun scope s' => (∀ entry ∈ entries, Prim.ofName? entry.1 = none) ∧ Reserved s entries scope s')
      fun _ _ => ¬ ∀ entry ∈ entries, Prim.ofName? entry.1 = none := by
  induction entries generalizing s with
  | nil =>
    refine ⟨by simp, rfl, .refl s, by simp, fun t old inside => ?_, .nil⟩
    exact absurd inside (Nat.not_lt.2 old)
  | cons entry entries ih =>
    obtain ⟨name, definition⟩ := entry
    unfold reserve
    simp only [List.forall_mem_cons]
    split
    · next primitive =>
      rintro ⟨free, _⟩
      rw [free] at primitive
      cases primitive
    · next free =>
      rw [Bool.not_eq_true, Option.isSome_eq_false_iff, Option.isNone_iff_eq_none] at free
      rw [ends_bind, ends_add, ends_bind]
      refine (ih _).mono ?_ fun _ _ bad both => bad both.2
      rintro scope s' ⟨others, names, grown, within, covered, distinct⟩
      have size := grown.size
      simp only [Graph.size_add] at size within covered
      refine ⟨⟨free, others⟩, by simpa using names, (s.grows_add (.odd 0)).trans grown, ?_, fun t old bound => ?_, ?_⟩
      · refine List.forall_mem_cons.2 ⟨⟨le_rfl, size⟩, fun e member => ?_⟩
        exact ⟨Nat.le_of_succ_le (within e member).1, (within e member).2⟩
      · by_cases here : t = s.graph.size
        · exact ⟨_, List.mem_cons_self, here.symm⟩
        · obtain ⟨e, member, rfl⟩ := covered t (by omega) bound
          exact ⟨e, List.mem_cons_of_mem _ member, rfl⟩
      · refine List.nodup_cons.2 ⟨fun member => ?_, distinct⟩
        obtain ⟨e, inside, same⟩ := List.mem_map.1 member
        exact absurd (within e inside).1 (by rw [same]; exact Nat.not_succ_le_self _)

/-- No name stands for a shared primitive node. -/
theorem Reserved.apart {s' : TypeStore} (reserved : Reserved s entries scope s') (rooted : s.graph.Rooted) :
    ∀ entry ∈ scope, ∀ p : Prim, p.typeId ≠ entry.2 := by
  intro entry member p same
  exact absurd (same ▸ prim_lt_size rooted p) (Nat.not_lt.2 (reserved.within entry member).1)

/-- Filling a node leaves one blank less. -/
theorem drafted_define {blank blank' : TypeId → Prop} {self : TypeId} {n : Node} (drafted : s.Drafted blank)
    (holds : s.Holds n) (apart : ∀ p : Prim, p.typeId ≠ self) (filled : ∀ t, blank t → t = self ∨ blank' t) :
    TypeStore.Drafted { s with graph := s.graph.define self n } blank' := by
  have kept {m : Node} (h : s.Holds m) : TypeStore.Holds { s with graph := s.graph.define self n } m :=
    ⟨h.formed, h.proto, h.named, by simpa using h.parts⟩
  refine ⟨fun p => ?_, drafted.distinct, fun t inside => ?_⟩
  · rw [Graph.node_define_of_ne (apart p), drafted.rooted p]
  · replace inside : t < s.graph.size := by simpa using inside
    by_cases here : t = self
    · subst here
      exact .inr (by rw [Graph.node_define_self inside]; exact kept holds)
    · obtain blank | old := drafted.nodes t inside
      · exact .inl ((filled t blank).resolve_left here)
      · exact .inr (by rw [Graph.node_define_of_ne here]; exact kept old)

theorem ends_fill (drafted : s.Drafted (Blank scope entries)) (known : scope.Known s)
    (apart : ∀ entry ∈ scope, ∀ p : Prim, p.typeId ≠ entry.2) :
    Ends (fill scope entries) s (fun _ s' => s'.Drafted (fun _ => False) ∧ scope.Known s') fun _ _ => True := by
  induction entries generalizing s with
  | nil => exact ⟨⟨drafted.rooted, drafted.distinct, fun t inside => .inr
      ((drafted.nodes t inside).resolve_left (by simp [Blank]))⟩, known⟩
  | cons entry entries ih =>
    obtain ⟨name, definition⟩ := entry
    unfold fill
    cases definition with
    | none => trivial
    | some d =>
      refine (ends_bind ..).2 ((Definition.yields name d drafted known).mono ?_ fun _ _ h => h)
      rintro t s' ⟨grown, drafted, holds⟩
      have known := known.grow grown
      cases found : scope.lookup name with
      | none =>
        refine ih ⟨drafted.rooted, drafted.distinct, fun u inside => (drafted.nodes u inside).imp_left ?_⟩ known
        rintro ⟨entry, member, here⟩
        obtain rfl | later := List.mem_cons.1 member
        · rw [found] at here
          cases here
        · exact ⟨entry, later, here⟩
      | some self =>
        refine ih (drafted_define drafted holds ?_ ?_) fun entry member => ?_
        · obtain ⟨before, after, rfl, _⟩ := List.lookup_eq_some_iff.1 found
          exact apart (name, self) (by simp)
        · rintro u ⟨entry, member, here⟩
          obtain rfl | later := List.mem_cons.1 member
          · rw [found] at here
            exact .inl (Option.some.inj here).symm
          · exact .inr ⟨entry, later, here⟩
        · simpa using known entry member

theorem lookup_of_nodup {scope : TypeScope} (once : (scope.map Prod.fst).Nodup) {entry : String × TypeId}
    (member : entry ∈ scope) : scope.lookup entry.1 = some entry.2 := by
  induction scope with
  | nil => cases member
  | cons head scope ih =>
    obtain ⟨fresh, once⟩ := List.nodup_cons.1 once
    obtain rfl | later := List.mem_cons.1 member
    · exact List.lookup_cons_self
    · have other : (entry.1 == head.1) = false :=
        beq_eq_false_iff_ne.2 fun same => fresh (same ▸ List.mem_map_of_mem later)
      rw [List.lookup_cons, other]
      exact ih once later

/-- Reserving and filling, as one action: with distinct names no blank is left. -/
theorem ends_read (entries : List (String × Option Definition)) (drafted : s.Drafted fun _ => False) :
    Ends (do
        let scope ← reserve entries
        fill scope entries
        return scope) s
      (fun scope s' => scope.map Prod.fst = entries.map Prod.fst ∧
        ((scope.map Prod.fst).Nodup → s'.Drafted (fun _ => False) ∧ scope.Known s'))
      fun _ _ => True := by
  refine (ends_bind ..).2 ((ends_reserve entries s).mono ?_ fun _ _ _ => trivial)
  rintro scope s' ⟨-, reserved⟩
  have ⟨names, grown, within, covered, _⟩ := reserved
  refine (ends_bind ..).2 ?_
  by_cases once : (scope.map Prod.fst).Nodup
  · have start : s'.Drafted (Blank scope entries) := by
      refine ⟨fun p => ?_, grown.distinct drafted.distinct, fun t inside => ?_⟩
      · rw [grown.nodes _ (prim_lt_size drafted.rooted p), drafted.rooted p]
      · by_cases old : t < s.graph.size
        · refine .inr ?_
          rw [grown.nodes t old]
          exact ((drafted.nodes t old).resolve_left id).grow grown
        · obtain ⟨entry, member, rfl⟩ := covered t (Nat.le_of_not_lt old) inside
          obtain ⟨e, there, same⟩ := List.mem_map.1 (names ▸ List.mem_map_of_mem member)
          exact .inl ⟨e, there, same ▸ lookup_of_nodup once member⟩
    exact (ends_fill start (fun entry member => (within entry member).2) (reserved.apart drafted.rooted)).mono
      (fun _ _ done => ⟨names, fun _ => done⟩) fun _ _ h => h
  · exact Ends.trivial.mono (fun _ _ _ => ⟨names, fun distinct => absurd distinct once⟩) fun _ _ h => h

/-- A document has a table if its definitions can be read and then named. -/
theorem table_eq_ok_iff {d : Document} {t : Table} : d.table = .ok t ↔ d.tags ≠ [] ∧ ∃ scope s,
    (do let scope ← reserve d.sorted; fill scope d.sorted; return scope : DocumentBuilder TypeScope).run
      (TypeStore.ofNames d.props) = .ok scope s ∧ Table.defineAll ⟨s.names, s.graph, []⟩ scope = .ok t := by
  unfold table
  split_ifs with empty
  · simp [List.isEmpty_iff.1 empty]
  · rw [List.isEmpty_iff] at empty
    simp only
    split
    · next run =>
      simp only [run]
      simp
    · next scope s run =>
      simp only [run, EStateM.Result.ok.injEq]
      constructor
      · intro defined
        exact ⟨empty, scope, s, ⟨rfl, rfl⟩, defined⟩
      · rintro ⟨-, _, _, ⟨rfl, rfl⟩, defined⟩
        exact defined

/-- The table of a document is in order, and its nodes have all their parts in it. -/
theorem table_holds {d : Document} {t : Table} (h : d.table = .ok t) :
    t.Ordered ∧ (∀ x < t.graph.size, TypeStore.Holds ⟨t.graph, t.props⟩ (t.graph.node x)) ∧
      ∀ entry ∈ t.tags, entry.2 < t.graph.size := by
  obtain ⟨-, scope, s, run, h⟩ := table_eq_ok_iff.1 h
  obtain ⟨-, read⟩ := (ends_read d.sorted (drafted_ofNames d.props)).of_ok run
  obtain ⟨props, graph, only, once, _⟩ := Table.defineAll_eq_ok h
  obtain ⟨drafted, known⟩ := read once
  replace graph : t.graph = s.graph := graph
  refine ⟨Table.Ordered.defineAll ⟨drafted.rooted, drafted.distinct, .nil, by simp⟩ h, fun x inside => ?_,
    fun entry member => ?_⟩
  · rw [props, graph]
    exact (drafted.nodes x (graph ▸ inside)).resolve_left id
  · exact graph ▸ known entry ((only entry member).resolve_left (by simp))

/-- The table of a document has all its parts. -/
theorem table_sound {d : Document} {t : Table} (h : d.table = .ok t) : t.Sound :=
  have ⟨ordered, holds, roots⟩ := table_holds h
  ⟨ordered, Table.typed_of_holds holds roots⟩

end Document

end Gradual
