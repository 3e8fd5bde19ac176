import Gradual.Proofs.Types.Portrait
import Gradual.Proofs.Types.Printing
import Mathlib

/-!
Printing draws portraits. The text of a well-built type is that of a sketch which portrays it: a node that is met again
inside of itself can reach itself, so it was marked, and the labels of marks are all different, so a reference leads to
the node it was made for (`Graph.WellBuilt.exists_portrait`). As sketches are told apart by their texts, types are told
apart by theirs up to structural equality.
-/
namespace Gradual

theorem range'_join {a b c : Nat} (first : a ≤ b) (second : b ≤ c) :
    List.range' a (b - a) ++ List.range' b (c - b) = List.range' a (c - a) := by
  have halves := List.range'_append_1 (s := a) (m := b - a) (n := c - b)
  rwa [Nat.add_sub_cancel' first, show b - a + (c - b) = c - a by omega] at halves

theorem bind_of_run {α β : Type} {act : StateM Nat α} {n n' : Nat} {a : α} (ran : act n = (a, n'))
    (next : α → StateM Nat β) : (act >>= next) n = next a n' := by
  change next (act n).1 (act n).2 = next a n'
  rw [ran]

theorem pure_run {α : Type} (a : α) (n : Nat) : (pure a : StateM Nat α) n = (a, n) := rfl

/-- The action writes a sketch after some text, and takes the next unused labels for its marks. -/
def Draws (before : String) (P : Sketch → Prop) (n : Nat) (act : Labelled) : Prop :=
  ∃ s n', act n = (before ++ s.text, n') ∧ P s ∧ n ≤ n' ∧ s.labels = List.range' n (n' - n)

def DrawsAll {α : Type} (separator : String) (before : α → String) (P : α → Sketch → Prop) (items : List α) (n : Nat)
    (act : Labelled) : Prop :=
  ∃ ss n', act n = (separator.intercalate (List.zipWith (fun a s => before a ++ s.text) items ss), n') ∧
    List.Forall₂ P items ss ∧ n ≤ n' ∧ ss.flatMap Sketch.labels = List.range' n (n' - n)

theorem join_draws {α : Type} (separator : String) {before : α → String} {act : α → Labelled} {P : α → Sketch → Prop}
    {least : Nat} {items : List α} (draws : ∀ a ∈ items, ∀ n, least ≤ n → Draws (before a) (P a) n (act a)) {n : Nat}
    (above : least ≤ n) : DrawsAll separator before P items n (Labelled.join separator (items.map act)) := by
  induction items generalizing n with
  | nil => exact ⟨[], n, by simp [Labelled.join]; rfl, .nil, Nat.le_refl n, by simp⟩
  | cons a items ih =>
    obtain ⟨here, later⟩ := List.forall_mem_cons.1 draws
    obtain ⟨s, n', ran, holds, le, labels⟩ := here n above
    cases items with
    | nil => exact ⟨[s], n', by simpa [Labelled.join] using ran, .cons holds .nil, le, by simpa using labels⟩
    | cons b items =>
      obtain ⟨ss, n'', rans, all, le', labels'⟩ := ih later (Nat.le_trans above le)
      obtain ⟨s', ss, rfl⟩ : ∃ s' ss', ss = s' :: ss' := by
        cases all
        exact ⟨_, _, rfl⟩
      refine ⟨s :: s' :: ss, n'', ?_, .cons holds all, Nat.le_trans le le', ?_⟩
      · rw [List.map_cons, List.map_cons, Labelled.join.eq_3 _ _ _ (by simp), bind_of_run ran, ← List.map_cons,
          bind_of_run rans]
        simp only [List.zipWith_cons_cons, String.intercalate_cons_cons]
        rfl
      · rw [List.flatMap_cons, labels, labels', range'_join le le']

/-- No text stands before the arguments of a closure. -/
theorem zipWith_text {α : Type} {P : α → Sketch → Prop} {items : List α} {ss : List Sketch}
    (all : List.Forall₂ P items ss) : List.zipWith (fun _ s => "" ++ s.text) items ss = ss.map Sketch.text := by
  induction all with
  | nil => rfl
  | cons _ _ ih => rw [List.zipWith_cons_cons, ih, String.empty_append, List.map_cons]

theorem Form.rest_closure (code : CodeKind) (args results : List String) :
    (Form.closure code args.length).rest (args ++ results) =
      ", ".intercalate args ++ ") -> " ++ " proto ".intercalate results := by
  rw [Form.rest, List.take_left, List.drop_left]

namespace Node

def Bare : Node → Prop
  | closure s => s.code ≠ .constructor → s.proto = none
  | _ => True

instance : (n : Node) → Decidable n.Bare
  | closure s => inferInstanceAs (Decidable (s.code ≠ .constructor → s.proto = none))
  | odd _ | prim _ | object _ | array _ | map _ => inferInstanceAs (Decidable True)

variable {n : Node} {form : Form} {child : Child → Labelled} {P : Child → Sketch → Prop} {least k : Nat}

theorem WellFormed.exists_form (formed : n.WellFormed) (compound : n.isPrim = false) :
    ∃ form, n.form? = some form ∧ form.lead ∈ Lead.all := by
  cases n with
  | closure s =>
    refine ⟨_, rfl, ?_⟩
    rw [Form.lead]
    rcases Signature.WellFormed.code formed with code | code | code <;> rw [code] <;> decide
  | object ps => exact ⟨_, rfl, (by decide : Lead.object ∈ Lead.all)⟩
  | array e => exact ⟨_, rfl, (by decide : Lead.array ∈ Lead.all)⟩
  | map e => exact ⟨_, rfl, (by decide : Lead.map ∈ Lead.all)⟩
  | odd => exact formed.elim
  | prim => cases compound

theorem WellFormed.part_of_mem (formed : n.WellFormed) {c : Child} (member : c ∈ n.spread) : n.Part c := by
  have parts := formed.parts
  cases n with
  | closure s =>
    obtain ⟨args, ret, proto⟩ := parts
    rw [spread, List.mem_append, List.mem_cons] at member
    rcases member with member | rfl | member
    · exact args c member
    · exact ret
    · split at member
      next ctor =>
        cases List.mem_singleton.1 member
        exact proto (Signature.WellFormed.proto formed ctor)
      next => cases member
  | object ps =>
    obtain ⟨p, listed, rfl⟩ := List.mem_map.1 member
    exact parts p (Property.mem_ordered.1 listed)
  | array e | map e =>
    cases List.mem_singleton.1 member
    exact parts
  | odd | prim => cases member

/-- A node is written from its first word on, with sketches for its parts. -/
theorem print_draws (formed : n.WellFormed) (bare : n.Bare) (shape : n.form? = some form)
    (draws : ∀ c ∈ n.spread, ∀ k, least ≤ k → Draws "" (P c) k (child c)) (above : least ≤ k) :
    ∃ parts k', n.print (fun _ => "") child k = (form.lead.word ++ form.rest (parts.map Sketch.text), k') ∧
      List.Forall₂ P n.spread parts ∧ k ≤ k' ∧ parts.flatMap Sketch.labels = List.range' k (k' - k) := by
  cases n with
  | closure s =>
    cases shape
    have args : DrawsAll ", " (fun _ => "") P s.args k (Labelled.join ", " (s.args.map child)) :=
      join_draws ", " (fun c member => draws c (List.mem_append_left _ member)) above
    obtain ⟨as, k₁, ran₁, all₁, le₁, labels₁⟩ := args
    obtain ⟨ret, k₂, ran₂, holds₂, le₂, labels₂⟩ := draws s.ret (by simp [spread]) k₁ (Nat.le_trans above le₁)
    rw [zipWith_text all₁] at ran₁
    have rest (results : List Sketch) : (Form.closure s.code s.args.length).rest ((as ++ results).map Sketch.text) =
        ", ".intercalate (as.map Sketch.text) ++ ") -> " ++ " proto ".intercalate (results.map Sketch.text) := by
      rw [List.map_append, all₁.length_eq, ← List.length_map Sketch.text, Form.rest_closure]
    rw [print, bind_of_run ran₁, bind_of_run ran₂, String.empty_append]
    by_cases ctor : s.code = .constructor
    · obtain ⟨t, present⟩ := Option.isSome_iff_exists.1 (formed.proto ctor)
      obtain ⟨proto, k₃, ran₃, holds₃, le₃, labels₃⟩ := draws s.proto (by simp [spread, ctor]) k₂
        (Nat.le_trans above (Nat.le_trans le₁ le₂))
      rw [present] at ran₃
      refine ⟨as ++ [ret, proto], k₃, ?_, ?_, Nat.le_trans le₁ (Nat.le_trans le₂ le₃), ?_⟩
      · rw [present]
        dsimp only
        rw [bind_of_run ran₃, rest]
        simp [pure_run, Form.lead, Lead.word, String.append_assoc]
      · rw [spread, if_pos ctor]
        exact List.rel_append all₁ (.cons holds₂ (.cons holds₃ .nil))
      · have later := range'_join le₂ le₃
        simp [labels₁, labels₂, labels₃, later, range'_join le₁ (Nat.le_trans le₂ le₃)]
    · rw [bare ctor]
      refine ⟨as ++ [ret], k₂, ?_, ?_, Nat.le_trans le₁ le₂, ?_⟩
      · rw [rest]
        simp [pure_run, Form.lead, Lead.word, String.append_assoc]
      · rw [spread, if_neg ctor]
        exact List.rel_append all₁ (.cons holds₂ .nil)
      · simp [labels₁, labels₂, range'_join le₁ le₂]
  | object ps =>
    cases shape
    let before (p : Property) : String := Form.fieldText (p.id, p.readOnly)
    have entries (p : Property) (member : p ∈ Property.ordered ps) (k : Nat) (above : least ≤ k) :
        Draws (before p) (P p.type) k (do
          let type ← child p.type
          return (if p.readOnly then "ro " else "") ++ propertyText (fun _ => "") p.id ++ ": " ++ type) := by
      obtain ⟨s, k', ran, holds, le, labels⟩ := draws p.type (List.mem_map_of_mem member) k above
      refine ⟨s, k', ?_, holds, le, labels⟩
      rw [bind_of_run ran, pure_run, String.empty_append]
      rfl
    obtain ⟨ss, k', ran, all, le, labels⟩ := join_draws ", " entries above
    refine ⟨ss, k', ?_, List.forall₂_map_left_iff.2 all, le, labels⟩
    refine (bind_of_run ran _).trans ?_
    rw [pure_run, Form.rest, List.zipWith_map, String.append_assoc]
    rfl
  | array e | map e =>
    cases shape
    obtain ⟨s, k', ran, holds, le, labels⟩ := draws e (by simp [spread]) k above
    refine ⟨[s], k', ?_, .cons holds .nil, le, by simpa using labels⟩
    rw [print, bind_of_run ran]
    simp [pure_run, Form.lead, Form.rest, Lead.word, String.append_assoc]
  | odd | prim => cases shape

end Node

namespace Graph

variable {g : Graph} {opened : List (TypeId × Nat)} {x : TypeId} {n : Nat}

/-- The marks around a place: the nodes that are open there and can reach themselves, by their labels. -/
def marks (g : Graph) (opened : List (TypeId × Nat)) : List (Nat × TypeId) :=
  (opened.filter fun entry => g.isCyclic entry.1).map Prod.swap

/-- The nodes around the place where a type is printed lead to it. Those that can reach themselves have labels of their
own, all of them used. -/
structure Surrounds (g : Graph) (opened : List (TypeId × Nat)) (x : TypeId) (n : Nat) : Prop where
  once : (opened.map Prod.fst).Nodup
  inside : ∀ entry ∈ opened, entry.1 < g.size
  leads : ∀ entry ∈ opened, ∃ u ∈ g.children entry.1, g.Reaches u x
  used : ∀ mark ∈ g.marks opened, mark.1 < n
  distinct : ((g.marks opened).map Prod.fst).Nodup

theorem mem_of_lookup {l : List (TypeId × Nat)} {label : Nat} (found : l.lookup x = some label) : (x, label) ∈ l := by
  obtain ⟨before, later, rfl, _⟩ := List.lookup_eq_some_iff.1 found
  exact List.mem_append_right _ List.mem_cons_self

theorem filter_of_mem {l : List (Nat × TypeId)} {label : Nat} (distinct : (l.map Prod.fst).Nodup)
    (member : (label, x) ∈ l) : l.filter (fun mark => mark.1 = label) = [(label, x)] := by
  obtain ⟨before, later, rfl⟩ := List.append_of_mem member
  simp only [List.map_append, List.map_cons, List.nodup_append, List.nodup_cons, List.mem_map] at distinct
  obtain ⟨-, ⟨fresh, -⟩, apart⟩ := distinct
  have first : before.filter (fun mark => mark.1 = label) = [] := by
    rw [List.filter_eq_nil_iff]
    intro mark here same
    exact apart mark.1 ⟨mark, here, rfl⟩ label List.mem_cons_self (by simpa using same)
  have last : later.filter (fun mark => mark.1 = label) = [] := by
    rw [List.filter_eq_nil_iff]
    intro mark here same
    exact fresh ⟨mark, here, by simpa using same⟩
  rw [List.filter_append, first, List.nil_append, List.filter_cons, last]
  simp

theorem marks_cons (g : Graph) (x : TypeId) (n : Nat) (opened : List (TypeId × Nat)) :
    g.marks ((x, n) :: opened) = if g.isCyclic x then (n, x) :: g.marks opened else g.marks opened := by
  unfold marks
  cases cyclic : g.isCyclic x <;> simp [cyclic]

namespace Surrounds

theorem nil (x : TypeId) (n : Nat) : g.Surrounds [] x n :=
  ⟨.nil, by simp, by simp, by simp [marks], by simp [marks]⟩

theorem mono (around : g.Surrounds opened x n) {n' : Nat} (later : n ≤ n') : g.Surrounds opened x n' :=
  { around with used := fun mark member => Nat.lt_of_lt_of_le (around.used mark member) later }

theorem length_le (around : g.Surrounds opened x n) : opened.length ≤ g.size := by
  have inside : ∀ t ∈ opened.map Prod.fst, t < g.size := by simpa using around.inside
  simpa using length_le_of_nodup around.once inside

/-- A node that is met again can reach itself, so it was marked. -/
theorem filter_marks (around : g.Surrounds opened x n) {label : Nat} (again : opened.lookup x = some label) :
    (g.marks opened).filter (fun mark => mark.1 = label) = [(label, x)] := by
  have member := mem_of_lookup again
  have cyclic : g.isCyclic x = true := isCyclic_iff.2 (around.leads _ member)
  exact filter_of_mem around.distinct (List.mem_map.2 ⟨_, List.mem_filter.2 ⟨member, cyclic⟩, rfl⟩)

/-- Only a node that can reach itself takes a label. -/
theorem push (around : g.Surrounds opened x n) (inside : x < g.size) (fresh : opened.lookup x = none) {y : TypeId}
    (edge : y ∈ g.children x) : g.Surrounds ((x, n) :: opened) y (if g.isCyclic x then n + 1 else n) where
  once := by
    refine List.nodup_cons.2 ⟨fun member => ?_, around.once⟩
    obtain ⟨entry, here, same⟩ := List.mem_map.1 member
    have other := List.lookup_eq_none_iff.1 fresh entry here
    simp [same] at other
  inside := List.forall_mem_cons.2 ⟨inside, around.inside⟩
  leads := by
    refine List.forall_mem_cons.2 ⟨⟨y, edge, .refl⟩, fun entry member => ?_⟩
    obtain ⟨u, first, path⟩ := around.leads entry member
    exact ⟨u, first, path.tail edge⟩
  used := by
    rw [marks_cons]
    split
    · refine List.forall_mem_cons.2 ⟨Nat.lt_succ_self n, fun mark member => ?_⟩
      exact Nat.lt_succ_of_lt (around.used mark member)
    · exact around.used
  distinct := by
    rw [marks_cons]
    split
    · refine List.nodup_cons.2 ⟨fun member => ?_, around.distinct⟩
      obtain ⟨mark, here, same⟩ := List.mem_map.1 member
      exact absurd same (Nat.ne_of_lt (around.used mark here))
    · exact around.distinct

end Surrounds

structure WellBuilt (g : Graph) (t : TypeId) : Prop where
  formed : g.WellFormed t
  bare : ∀ u, g.Reaches t u → (g.node u).Bare

theorem WellBuilt.child (built : g.WellBuilt x) {y : TypeId} (edge : y ∈ g.children x) : g.WellBuilt y :=
  ⟨built.formed.child edge, fun u path => built.bare u (.head edge path)⟩

/-- Types that refer to nothing but each other are well built if their nodes are. -/
theorem WellBuilt.of_closed {ts : List TypeId}
    (closed : ∀ t ∈ ts, ((g.node t).WellFormed ∧ (g.node t).Bare) ∧ ∀ u ∈ g.children t, u ∈ ts) (member : x ∈ ts) :
    g.WellBuilt x where
  formed := .of_closed ts (fun t inside => ⟨(closed t inside).1.1, (closed t inside).2⟩) member
  bare u path := by
    have inside : u ∈ ts := by
      induction path with
      | refl => exact member
      | tail _ edge ih => exact (closed _ ih).2 _ edge
    exact (closed u inside).1.2

variable {names : PropId → String} {fuel : Nat}

theorem printWithin_prim {p : Prim} (shape : g.node x = .prim p) :
    g.printWithin names (fuel + 1) opened (some x) n = (p.name, n) := by
  simp only [printWithin, shape]
  rfl

theorem printWithin_again (compound : (g.node x).isPrim = false) {label : Nat} (again : opened.lookup x = some label) :
    g.printWithin names (fuel + 1) opened (some x) n = (s!"#{label}", n) := by
  rw [Renaming.printWithin_compound compound, again]
  rfl

/-- A node is written after its mark, if it has one, and takes a label just then. -/
theorem printWithin_open (compound : (g.node x).isPrim = false) (fresh : opened.lookup x = none) {body : String}
    {k : Nat} (ran : (g.node x).print names (g.printWithin names fuel ((x, n) :: opened))
      (if g.isCyclic x then n + 1 else n) = (body, k)) :
    g.printWithin names (fuel + 1) opened (some x) n = ((if g.isCyclic x then s!"#{n}=" else "") ++ body, k) := by
  have entered : Labelled.enter (g.isCyclic x) n =
      ((n, if g.isCyclic x then s!"#{n}=" else ""), if g.isCyclic x then n + 1 else n) := by
    cases g.isCyclic x <;> rfl
  rw [Renaming.printWithin_compound compound, fresh]
  dsimp only
  rw [bind_of_run entered]
  dsimp only
  rw [bind_of_run ran, pure_run]

theorem portrays_node {scope : List (Nat × TypeId)} {form : Form} {parts : List Sketch} (formed : (g.node x).WellFormed)
    (shape : (g.node x).form? = some form) (known : form.lead ∈ Lead.all)
    (all : List.Forall₂ (fun c s => s.WellShaped ∧ Portrays g scope s c) (g.node x).spread parts) :
    (Sketch.node form parts).WellShaped ∧ Portrays g scope (.node form parts) (some x) := by
  have count : parts.length = (g.node x).spread.length := all.length_eq.symm
  refine ⟨.node known (count.trans (Node.length_spread shape)) fun s member => ?_, .node formed shape count ?_⟩
  · obtain ⟨i, inside, rfl⟩ := List.getElem_of_mem member
    exact ((List.forall₂_iff_get.1 all).2 i (count ▸ inside) inside).1
  · exact fun s c member => ((List.forall₂_iff_zip.1 all.flip).2 member).2

/-- What is printed is a portrait. The induction is on the depth that is left, which is never used up. -/
theorem WellBuilt.draws (built : g.WellBuilt x) (around : g.Surrounds opened x n)
    (enough : g.size < fuel + opened.length) :
    Draws "" (fun s => s.WellShaped ∧ Portrays g (g.marks opened) s (some x)) n
      (g.printWithin (fun _ => "") fuel opened (some x)) := by
  induction fuel generalizing opened x n with
  | zero =>
    have := around.length_le
    omega
  | succ fuel ih =>
    have formed := built.formed.node
    by_cases prim : ∃ p, g.node x = .prim p
    · obtain ⟨p, shape⟩ := prim
      refine ⟨.prim p, n, ?_, ⟨.prim p, .prim shape⟩, Nat.le_refl n, by simp [Sketch.labels]⟩
      rw [printWithin_prim shape, Sketch.text, String.empty_append]
    have compound : (g.node x).isPrim = false := by
      cases shape : g.node x with
      | prim p => exact absurd ⟨p, shape⟩ prim
      | _ => rfl
    cases closed : opened.lookup x with
    | some label =>
      have marked := around.filter_marks closed
      refine ⟨.back label, n, ?_, ⟨.back label, .back marked⟩, Nat.le_refl n, by simp [Sketch.labels]⟩
      rw [printWithin_again compound closed, Sketch.text, String.empty_append]
    | none =>
      obtain ⟨form, shape, known⟩ := formed.exists_form compound
      let least := if g.isCyclic x then n + 1 else n
      have each (c : Child) (member : c ∈ (g.node x).spread) (k : Nat) (above : least ≤ k) :
          Draws "" (fun s => s.WellShaped ∧ Portrays g (g.marks ((x, n) :: opened)) s c) k
            (g.printWithin (fun _ => "") fuel ((x, n) :: opened) c) := by
        obtain ⟨y, edge, rfl⟩ := formed.part_of_mem member
        have pushed := around.push (lt_size_of_wellFormed formed) closed edge
        exact ih (built.child edge) (pushed.mono above) (by simp; omega)
      obtain ⟨parts, k, ran, all, le, labels⟩ :=
        Node.print_draws formed (built.bare x .refl) shape each (Nat.le_refl least)
      obtain ⟨shaped, portrays⟩ := portrays_node formed shape known all
      have text := printWithin_open compound closed ran
      rw [marks_cons] at portrays
      cases cyclic : g.isCyclic x with
      | true =>
        simp only [least, cyclic, if_true] at le labels portrays text
        refine ⟨.mark n (.node form parts), k, ?_, ⟨.mark shaped, .mark portrays⟩, by omega, ?_⟩
        · rw [text, Sketch.text, Sketch.text, String.empty_append]
        · rw [Sketch.labels, Sketch.labels, labels, ← List.range'_succ]
          congr 1
          omega
      | false =>
        simp only [least, cyclic, Bool.false_eq_true, if_false] at le labels portrays text
        exact ⟨.node form parts, k, by rw [text, Sketch.text], ⟨shaped, portrays⟩, le, by rw [Sketch.labels, labels]⟩

/-- The text of a type is that of a sketch that portrays it, with labels of their own on all marks. -/
theorem WellBuilt.exists_portrait (built : g.WellBuilt x) : ∃ s : Sketch, s.WellShaped ∧
    s.text = g.printBare (some x) ∧ s.labels.Nodup ∧ Portrays g [] s (some x) := by
  obtain ⟨s, n, ran, ⟨shaped, portrays⟩, -, labels⟩ := built.draws (.nil x 0) (by simp : g.size < g.size + 2 + _)
  refine ⟨s, shaped, ?_, labels ▸ List.nodup_range', portrays⟩
  rw [printBare, print, ran, String.empty_append]

/-- Printed types determine the type. Printing comes to its end whatever the bound on its depth, as long as that is
larger than the graph. The text is that of one sketch only, in which every reference is to the one node around it with
that label, no label is given twice, and everything else is as the type says. Types with the same text are structurally
equal. -/
theorem WellBuilt.print_determines {a b : TypeId} (left : g.WellBuilt a) (right : g.WellBuilt b) :
    (∀ fuel, g.size < fuel → (g.printWithin (fun _ => "") fuel [] (some a) 0).1 = g.printBare (some a)) ∧
    (∃ s : Sketch, s.WellShaped ∧ s.text = g.printBare (some a) ∧ s.labels.Nodup ∧ Portrays g [] s (some a) ∧
      ∀ s' : Sketch, s'.WellShaped → s'.text = g.printBare (some a) → s' = s) ∧
    (g.printBare (some a) = g.printBare (some b) → g.Equal a b) := by
  obtain ⟨s, shaped, text, labels, portrays⟩ := left.exists_portrait
  refine ⟨?_, ⟨s, shaped, text, labels, portrays, ?_⟩, ?_⟩
  · intro fuel enough
    rw [left.formed.printWithin_eq _ enough]
    rfl
  · intro s' shaped' text'
    exact shaped'.text_inj shaped (text'.trans text.symm)
  · intro same
    obtain ⟨s', shaped', text', -, portrays'⟩ := right.exists_portrait
    obtain rfl : s = s' := shaped.text_inj shaped' (text.trans (same.trans text'.symm))
    exact portrays.equal portrays'

/-- Two rings of objects (6 and 10) and constructors (7 and 11) that construct each other, with a function type (8) in
common. -/
def rings : Graph :=
  ⟨primitives.nodes ++ #[
    .object [⟨0, some 6, false⟩, ⟨1, some 7, true⟩], .closure ⟨.constructor, [some 6], some 8, some 9⟩,
    .closure ⟨.function, [], some 0, none⟩, .array (some 7),
    .object [⟨1, some 11, true⟩, ⟨0, some 10, false⟩], .closure ⟨.constructor, [some 10], some 8, some 12⟩,
    .array (some 11)]⟩

theorem rings_wellBuilt (t : TypeId) (member : t ∈ [0, 6, 7, 8, 9, 10, 11, 12]) : rings.WellBuilt t :=
  .of_closed (by decide) member

theorem WellBuilt.print_determines_rings :
    rings.printBare (some 6) = "#0=\x7bp0: #0, ro p1: #1=ctor(#0) -> fn() -> int proto #2=[#1]\x7d" ∧
      rings.Equal 6 10 :=
  ⟨by cbv, (print_determines (rings_wellBuilt 6 (by decide)) (rings_wellBuilt 10 (by decide))).2.2 (by cbv)⟩

/-- Functions (8, 13) with prototypes that none should have. -/
def misread : Graph :=
  ⟨primitives.nodes ++ #[
    .array (some 0), .array (some 2),
    .closure ⟨.function, [], some 0, some 6⟩, .closure ⟨.constructor, [some 0], some 8, some 7⟩,
    .closure ⟨.function, [], some 0, none⟩, .closure ⟨.constructor, [some 0], some 10, some 6⟩,
    .closure ⟨.function, [], some 9, none⟩, .closure ⟨.function, [], some 11, some 7⟩]⟩

/-- Where functions have prototypes, a text does not tell whose prototype comes first. -/
theorem printBare_misread : misread.WellFormed 12 ∧ misread.WellFormed 13 ∧
    misread.printBare (some 12) = misread.printBare (some 13) ∧ ¬ misread.Equal 12 13 := by
  have formed (t : TypeId) (member : t ∈ [0, 2, 6, 7, 8, 9, 10, 11, 12, 13]) : misread.WellFormed t :=
    .of_closed _ (by decide) member
  refine ⟨formed 12 (by decide), formed 13 (by decide), by cbv, fun equal => ?_⟩
  have constructors : misread.Equal 9 11 := by
    obtain ⟨-, -, ret, -⟩ := equal.parts
    cases ret
    assumption
  have prototypes : misread.Equal 7 6 := by
    obtain ⟨-, -, -, proto⟩ := constructors.parts
    cases proto rfl
    assumption
  have elements : misread.Equal 2 0 := by
    cases prototypes.parts
    assumption
  cases elements.parts

end Graph

end Gradual
