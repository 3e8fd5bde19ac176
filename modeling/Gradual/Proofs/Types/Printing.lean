import Gradual.Proofs.Types.Renaming
import Gradual.Types.Printer

/-!
The text of a type in a renamed graph. Labels are given to nodes that can reach themselves, in the order in which they
are opened, and neither depends on where the nodes are. The depth of printing is bounded by the size of the graph, which
may be another one; the bound is never met, because a node is not opened inside of itself. Main statement:
`Graph.Renaming.print_eq`.
-/
namespace Gradual

namespace Graph

variable {g : Graph} {fuel : Nat} {pending seen roots : List TypeId} {t u : TypeId}

theorem unseen_cons (fresh : t ∉ seen) : g.unseen (t :: seen) + (g.children t).length = g.unseen seen := by
  have order : g.unseen (t :: seen) = g.unseen (seen ++ [t]) := by
    unfold unseen
    congr 2
    ext u
    simp
  by_cases inside : t < g.size
  · rw [order, unseen_append inside fresh]
  · have leaf : g.children t = [] := by
      rw [size] at inside
      simp [children, node, Array.getD, inside, Node.children]
    have same : Finset.range g.size \ (t :: seen).toFinset = Finset.range g.size \ seen.toFinset := by
      ext u
      simp only [List.toFinset_cons, Finset.mem_sdiff, Finset.mem_range, Finset.mem_insert, List.mem_toFinset]
      constructor
      · rintro ⟨below, other⟩
        exact ⟨below, fun member => other (.inr member)⟩
      · rintro ⟨below, other⟩
        refine ⟨below, ?_⟩
        rintro (rfl | member)
        · exact inside below
        · exact other member
    rw [unseen, same, leaf]
    rfl

/-- A search finds nothing but what can be reached. -/
theorem reaches_of_mem_explore (found : u ∈ g.explore fuel pending seen) :
    u ∈ seen ∨ ∃ r ∈ pending, g.Reaches r u := by
  fun_induction explore with
  | case1 => exact .inl found
  | case2 => exact .inl found
  | case3 fuel t pending seen here ih =>
    rcases ih found with before | ⟨r, root, path⟩
    · exact .inl before
    · exact .inr ⟨r, List.mem_cons_of_mem _ root, path⟩
  | case4 fuel t pending seen fresh ih =>
    rcases ih found with before | ⟨r, root, path⟩
    · rcases List.mem_cons.1 before with rfl | before
      · exact .inr ⟨u, List.mem_cons_self, .refl⟩
      · exact .inl before
    · rcases List.mem_append.1 root with edge | root
      · exact .inr ⟨t, List.mem_cons_self, path.head edge⟩
      · exact .inr ⟨r, List.mem_cons_of_mem _ root, path⟩

/-- A search with a step for each pending node and each edge that was not followed yet comes to an end: what it finds
refers to nothing else. -/
theorem explore_closed (enough : pending.length + g.unseen seen ≤ fuel)
    (closed : ∀ t ∈ seen, ∀ u ∈ g.children t, u ∈ seen ++ pending) :
    (∀ t ∈ seen ++ pending, t ∈ g.explore fuel pending seen) ∧
      ∀ t ∈ g.explore fuel pending seen, ∀ u ∈ g.children t, u ∈ g.explore fuel pending seen := by
  fun_induction explore with
  | case1 pending seen =>
    obtain rfl : pending = [] := List.length_eq_zero_iff.1 (by omega)
    simpa using closed
  | case2 fuel seen => simpa using closed
  | case3 fuel t pending seen here ih =>
    rw [List.length_cons] at enough
    obtain ⟨kept, done⟩ := ih (by omega) fun v member u edge => by
      have := closed v member u edge
      simp only [List.mem_append, List.mem_cons] at this ⊢
      grind
    refine ⟨fun v member => kept v ?_, done⟩
    simp only [List.mem_append, List.mem_cons] at member ⊢
    grind
  | case4 fuel t pending seen fresh ih =>
    rw [List.length_cons] at enough
    have spent := unseen_cons (g := g) fresh
    obtain ⟨kept, done⟩ := ih (by rw [List.length_append]; omega) fun v member u edge => by
      simp only [List.mem_append, List.mem_cons] at member ⊢
      rcases member with rfl | member
      · exact .inr (.inl edge)
      · have := closed v member u edge
        simp only [List.mem_append, List.mem_cons] at this
        grind
    refine ⟨fun v member => kept v ?_, done⟩
    simp only [List.mem_append, List.mem_cons] at member ⊢
    grind

theorem mem_reachable_iff : u ∈ g.reachable roots ↔ ∃ r ∈ roots, g.Reaches r u := by
  constructor
  · intro found
    exact (reaches_of_mem_explore found).resolve_left (by simp)
  · rintro ⟨r, root, path⟩
    have enough : roots.length + g.unseen [] ≤ roots.length + g.edgeCount := by rw [unseen_nil]
    obtain ⟨kept, closed⟩ := explore_closed enough (by simp)
    induction path with
    | refl => exact kept r (by simpa using root)
    | tail _ edge ih => exact closed _ ih _ edge

theorem length_le_of_nodup {places : List TypeId} {size : Nat} (once : places.Nodup) (inside : ∀ t ∈ places, t < size) :
    places.length ≤ size := by
  have within : places ⊆ List.range size := fun t member => List.mem_range.2 (inside t member)
  simpa using (once.subperm within).length_le

theorem isCyclic_iff : g.isCyclic t = true ↔ ∃ u ∈ g.children t, g.Reaches u t := by
  rw [isCyclic, decide_eq_true_iff, mem_reachable_iff]

end Graph

namespace Node

variable {φ : TypeId → TypeId} {names : PropId → String} {child child' : Child → Labelled} {n : Node}

theorem mapTypes_id (n : Node) : n.mapTypes id = n := by
  cases n <;> simp [mapTypes]

theorem print_mapTypes (n : Node) : (n.mapTypes φ).print names child = n.print names fun c => child (c.map φ) := by
  cases n with
  | closure s =>
    obtain ⟨code, args, ret, proto⟩ := s
    simp only [mapTypes, print, List.map_map, Function.comp_def]
    cases proto <;> rfl
  | object ps =>
    have order : (ps.map fun p => (⟨p.id, p.type.map φ, p.readOnly⟩ : Property)).mergeSort (fun p q => p.id ≤ q.id) =
        (ps.mergeSort fun p q => p.id ≤ q.id).map fun p => ⟨p.id, p.type.map φ, p.readOnly⟩ := by
      rw [List.map_mergeSort]
      intro p _ q _
      rfl
    simp only [mapTypes, print, order, List.map_map, Function.comp_def]
  | _ => rfl

theorem print_congr {P : Child → Prop} (parts : n.Parts P) (same : ∀ c, P c → child c = child' c) :
    n.print names child = n.print names child' := by
  cases n with
  | prim | odd => rfl
  | closure s =>
    obtain ⟨args, ret, proto⟩ := parts
    have texts : s.args.map child = s.args.map child' := List.map_congr_left fun a inside => same a (args a inside)
    simp only [print, texts, same _ ret]
    cases present : s.proto with
    | none => rfl
    | some t =>
      rw [present] at proto
      simp only [same _ (proto rfl)]
  | object ps =>
    have texts : ((ps.mergeSort fun p q => p.id ≤ q.id).map fun p => (do
          let type ← child p.type
          return (if p.readOnly then "ro " else "") ++ propertyText names p.id ++ ": " ++ type : Labelled)) =
        (ps.mergeSort fun p q => p.id ≤ q.id).map fun p => do
          let type ← child' p.type
          return (if p.readOnly then "ro " else "") ++ propertyText names p.id ++ ": " ++ type := by
      apply List.map_congr_left
      intro p inside
      rw [same p.type (parts p (List.mem_mergeSort.1 inside))]
    simp only [print, texts]
  | array e | map e => simp only [print, same e parts]

end Node

namespace Graph.Renaming

variable {φ : TypeId → TypeId} {g h : Graph} {Known : TypeId → Prop} {x : TypeId}

theorem children (ren : Renaming φ g h Known) (known : Known x) : h.children (φ x) = (g.children x).map φ := by
  rw [Graph.children, ren.node x known, Node.children_mapTypes]
  rfl

theorem lt_size (ren : Renaming φ g h Known) (known : Known x) : x < g.size ∧ φ x < h.size := by
  have formed := ren.formed x known
  refine ⟨lt_size_of_wellFormed formed, lt_size_of_wellFormed ?_⟩
  rw [ren.node x known]
  exact Node.wellFormed_mapTypes formed

theorem reaches (ren : Renaming φ g h Known) (known : Known x) {y : TypeId} (path : g.Reaches x y) :
    Known y ∧ h.Reaches (φ x) (φ y) := by
  induction path with
  | refl => exact ⟨known, .refl⟩
  | tail _ edge ih =>
    refine ⟨ren.child _ ih.1 _ edge, ih.2.tail ?_⟩
    rw [ren.children ih.1]
    exact List.mem_map_of_mem edge

/-- What is reached from an image is the image of something reached. -/
theorem exists_of_reaches (ren : Renaming φ g h Known) (known : Known x) {z : TypeId} (path : h.Reaches (φ x) z) :
    ∃ y, g.Reaches x y ∧ φ y = z := by
  induction path with
  | refl => exact ⟨x, .refl, rfl⟩
  | tail _ edge ih =>
    obtain ⟨y, path, rfl⟩ := ih
    rw [ren.children (ren.reaches known path).1] at edge
    obtain ⟨z, part, rfl⟩ := List.mem_map.1 edge
    exact ⟨z, path.tail part, rfl⟩

theorem isCyclic_eq (ren : Renaming φ g h Known) (known : Known x) (compound : (g.node x).isPrim = false) :
    h.isCyclic (φ x) = g.isCyclic x := by
  rw [Bool.eq_iff_iff, isCyclic_iff, isCyclic_iff, ren.children known]
  constructor
  · rintro ⟨_, edge, path⟩
    obtain ⟨u, part, rfl⟩ := List.mem_map.1 edge
    have knownU := ren.child x known u part
    obtain ⟨y, path, same⟩ := ren.exists_of_reaches knownU path
    -- the way round ends at `x` itself, which has its image to itself
    obtain rfl : x = y := ren.apart x y known (ren.reaches knownU path).1 same.symm compound
    exact ⟨u, part, path⟩
  · rintro ⟨u, part, path⟩
    exact ⟨φ u, List.mem_map_of_mem part, (ren.reaches (ren.child x known u part) path).2⟩

structure Opened (g : Graph) (Known : TypeId → Prop) (opened : List (TypeId × Nat)) : Prop where
  once : (opened.map Prod.fst).Nodup
  known : ∀ entry ∈ opened, Known entry.1
  compound : ∀ entry ∈ opened, (g.node entry.1).isPrim = false

def renameOpened (φ : TypeId → TypeId) (opened : List (TypeId × Nat)) : List (TypeId × Nat) :=
  opened.map fun (t, label) => (φ t, label)

variable {opened : List (TypeId × Nat)}

theorem lookup_rename (ren : Renaming φ g h Known) (around : Opened g Known opened) (known : Known x) :
    (renameOpened φ opened).lookup (φ x) = opened.lookup x := by
  have apart (entry : TypeId × Nat) (inside : entry ∈ opened) : φ x = φ entry.1 ↔ x = entry.1 := by
    constructor
    · intro same
      exact (ren.apart _ _ (around.known entry inside) known same.symm (around.compound entry inside)).symm
    · exact congrArg φ
  clear around
  induction opened with
  | nil => rfl
  | cons entry opened ih =>
    obtain ⟨head, tail⟩ := List.forall_mem_cons.1 apart
    obtain ⟨y, label⟩ := entry
    have rest : (opened.map fun (t, label) => (φ t, label)).lookup (φ x) = opened.lookup x := ih tail
    simp only [renameOpened, List.map_cons, List.lookup_cons, rest]
    by_cases same : x = y
    · simp [same]
    · simp [beq_false_of_ne same, beq_false_of_ne (mt head.1 same)]

/-- Nodes that are open are distinct nodes of the graph. -/
theorem length_opened_le (ren : Renaming φ g h Known) (around : Opened g Known opened) :
    opened.length ≤ g.size ∧ opened.length ≤ h.size := by
  have places : (opened.map Prod.fst).length ≤ g.size := by
    apply length_le_of_nodup around.once
    intro t member
    obtain ⟨entry, inside, rfl⟩ := List.mem_map.1 member
    exact (ren.lt_size (around.known entry inside)).1
  have images : ((opened.map Prod.fst).map φ).length ≤ h.size := by
    apply length_le_of_nodup
    · apply List.Nodup.map_on _ around.once
      intro a memberA b memberB same
      obtain ⟨entryA, insideA, rfl⟩ := List.mem_map.1 memberA
      obtain ⟨entryB, insideB, rfl⟩ := List.mem_map.1 memberB
      exact ren.apart _ _ (around.known _ insideA) (around.known _ insideB) same (around.compound _ insideA)
    · intro t member
      obtain ⟨_, place, rfl⟩ := List.mem_map.1 member
      obtain ⟨entry, inside, rfl⟩ := List.mem_map.1 place
      exact (ren.lt_size (around.known entry inside)).2
  exact ⟨by simpa using places, by simpa using images⟩

theorem Opened.push (around : Opened g Known opened) (known : Known x) (compound : (g.node x).isPrim = false)
    (closed : opened.lookup x = none) (label : Nat) : Opened g Known ((x, label) :: opened) := by
  refine ⟨?_, List.forall_mem_cons.2 ⟨known, around.known⟩, List.forall_mem_cons.2 ⟨compound, around.compound⟩⟩
  rw [List.map_cons, List.nodup_cons]
  refine ⟨?_, around.once⟩
  intro member
  obtain ⟨entry, inside, same⟩ := List.mem_map.1 member
  have := List.lookup_eq_none_iff.1 closed entry inside
  simp_all

/-- A node that is not primitive and not open is opened. -/
theorem printWithin_compound {names : PropId → String} {fuel : Nat} {t : TypeId}
    (compound : (g.node t).isPrim = false) :
    g.printWithin names (fuel + 1) opened (some t) =
      match opened.lookup t with
      | some label => pure s!"#{label}"
      | none => do
        let (label, mark) ← Labelled.enter (g.isCyclic t)
        let body ← (g.node t).print names (g.printWithin names fuel ((t, label) :: opened))
        return mark ++ body := by
  rw [printWithin]
  split
  next p shape => rw [shape] at compound; cases compound
  next => rfl

/-- The induction is on the depth that is left in the first graph; in the other one it may be another, but it is never
used up. -/
theorem printWithin_eq (ren : Renaming φ g h Known) {names : PropId → String} {fuel fuel' : Nat}
    (around : Opened g Known opened) (known : Known x) (enough : g.size < fuel + opened.length)
    (enough' : h.size < fuel' + opened.length) :
    h.printWithin names fuel' (renameOpened φ opened) (some (φ x)) = g.printWithin names fuel opened (some x) := by
  obtain ⟨few, few'⟩ := ren.length_opened_le around
  induction fuel generalizing fuel' opened x with
  | zero => omega
  | succ fuel ih =>
    cases fuel' with
    | zero => omega
    | succ fuel' =>
      by_cases prim : ∃ p, g.node x = .prim p
      · obtain ⟨p, shape⟩ := prim
        simp only [printWithin, ren.node x known, shape, Node.mapTypes]
      · have compound : (g.node x).isPrim = false := by
          cases shape : g.node x with
          | prim p => exact absurd ⟨p, shape⟩ prim
          | _ => rfl
        have image : (h.node (φ x)).isPrim = false := by rw [ren.node x known, Node.isPrim_mapTypes, compound]
        rw [printWithin_compound compound, printWithin_compound image, ren.lookup_rename around known,
          ren.isCyclic_eq known compound]
        cases closed : opened.lookup x with
        | some label => rfl
        | none =>
          apply bind_congr
          rintro ⟨label, mark⟩
          have body : (h.node (φ x)).print names (h.printWithin names fuel' (renameOpened φ ((x, label) :: opened))) =
              (g.node x).print names (g.printWithin names fuel ((x, label) :: opened)) := by
            rw [ren.node x known, Node.print_mapTypes]
            apply Node.print_congr (ren.formed x known).parts
            rintro _ ⟨y, part, rfl⟩
            have around' := around.push known compound closed label
            obtain ⟨few, few'⟩ := ren.length_opened_le around'
            exact ih around' (ren.child x known y part) (by simp; omega) (by simp; omega) few few'
          dsimp only
          rw [← body]
          rfl

/-- A type has the same text in both graphs. -/
theorem print_eq (ren : Renaming φ g h Known) (names : PropId → String) (known : Known x) :
    h.print names (some (φ x)) = g.print names (some x) := by
  have around : Opened g Known [] := ⟨.nil, by simp, by simp⟩
  have same : h.printWithin names (h.size + 2) [] (some (φ x)) = g.printWithin names (g.size + 2) [] (some x) :=
    ren.printWithin_eq around known (by simp) (by simp)
  exact congrArg Prod.fst (congrFun same 0)

end Graph.Renaming

/-- The depth of printing is bounded by the nodes that can be open at once: a larger bound changes nothing. -/
theorem Graph.WellFormed.printWithin_eq {g : Graph} {x : TypeId} (formed : g.WellFormed x) (names : PropId → String)
    {fuel : Nat} (enough : g.size < fuel) :
    g.printWithin names fuel [] (some x) = g.printWithin names (g.size + 2) [] (some x) := by
  have ren : Renaming id g g g.WellFormed :=
    ⟨fun _ known => known.node, fun y _ => (g.node y).mapTypes_id.symm, fun _ known _ edge => known.child edge,
      fun _ _ _ _ same _ => same⟩
  have around : Renaming.Opened g g.WellFormed [] := ⟨.nil, by simp, by simp⟩
  exact ren.printWithin_eq around formed (by simp) (by simpa using enough)

end Gradual
