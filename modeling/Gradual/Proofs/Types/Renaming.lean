import Gradual.Proofs.Table.Isomorphism
import Gradual.Proofs.Types.Comparison
import Gradual.Proofs.Types.Decision

/-!
Checks in a renamed graph. A renaming takes nodes to nodes of the same shape and keeps them apart, but for primitive
nodes of one kind. Hypotheses are made about other nodes only, so a check goes the same way in both graphs: it makes
hypotheses about the same pairs in the same order, and overflows in one graph if it does in the other. Main statement:
`Graph.Renaming.decide_eq`.
-/
namespace Gradual

namespace Node

variable {φ : TypeId → TypeId}

@[simp] theorem kindCode_mapTypes (n : Node) : (n.mapTypes φ).kindCode = n.kindCode := by cases n <;> rfl

@[simp] theorem isPrim_mapTypes (n : Node) : (n.mapTypes φ).isPrim = n.isPrim := by cases n <;> rfl

@[simp] theorem subtypeAtOnce?_mapTypes (m n : Node) :
    (m.mapTypes φ).subtypeAtOnce? (n.mapTypes φ) = m.subtypeAtOnce? n := by
  cases m with
  | closure s =>
    cases n with
    | closure t => simp [mapTypes, subtypeAtOnce?, Signature.fits, Signature.promotes]
    | _ => rfl
  | prim p => cases p <;> cases n <;> rfl
  | _ => cases n <;> rfl

/-- The verdict on primitive nodes needs no look at parts. -/
theorem compound_of_subtypeAtOnce? {m n : Node} (later : m.subtypeAtOnce? n = none) :
    m.isPrim = false ∧ n.isPrim = false := by
  cases m with
  | prim p => cases p <;> cases n <;> cases later
  | _ => cases n <;> first | exact ⟨rfl, rfl⟩ | cases later

variable (equal subtype : Child → Child → Trial)

theorem equalPrototypes_map (a b : Child) :
    equalPrototypes equal (a.map φ) (b.map φ) = equalPrototypes (fun x y => equal (x.map φ) (y.map φ)) a b := by
  cases a <;> cases b <;> simp [equalPrototypes]

theorem find?_map (f : Child → Child) (ps : List Property) (id : PropId) :
    Property.find? (ps.map fun p => ⟨p.id, f p.type, p.readOnly⟩) id =
      (Property.find? ps id).map fun p => ⟨p.id, f p.type, p.readOnly⟩ := by
  simp only [Property.find?, List.find?_map, Function.comp_def]

theorem pairwise_map (f : Child → Child) (xs ys : List Child) :
    Trial.pairwise equal (xs.map f) (ys.map f) = Trial.pairwise (fun x y => equal (f x) (f y)) xs ys := by
  induction xs generalizing ys with
  | nil => rfl
  | cons x xs ih =>
    cases ys with
    | nil => rfl
    | cons y ys => simp only [List.map_cons, Trial.pairwise, ih]

theorem all_map {α β : Type} (f : α → β) (check : β → Trial) (xs : List α) :
    Trial.all check (xs.map f) = Trial.all (fun x => check (f x)) xs := by
  induction xs with
  | nil => rfl
  | cons x xs ih => simp only [List.map_cons, Trial.all, ih]

theorem equalParts_mapTypes (m n : Node) :
    (m.mapTypes φ).equalParts equal (n.mapTypes φ) =
      m.equalParts (fun x y => equal (x.map φ) (y.map φ)) n := by
  cases m with
  | closure s =>
    cases n with
    | closure t => simp [mapTypes, equalParts, pairwise_map, equalPrototypes_map]
    | _ => rfl
  | object ps =>
    cases n with
    | object qs =>
      simp only [mapTypes, equalParts, List.length_map, all_map, find?_map]
      split
      · rfl
      · congr 1
        funext p
        cases Property.find? qs p.id <;> rfl
    | _ => rfl
  | _ => cases n <;> rfl

theorem subtypeParts_mapTypes (v : Variance) (m n : Node) :
    (m.mapTypes φ).subtypeParts v equal subtype (n.mapTypes φ) =
      m.subtypeParts v (fun x y => equal (x.map φ) (y.map φ)) (fun x y => subtype (x.map φ) (y.map φ)) n := by
  cases m with
  | closure s =>
    cases n with
    | closure t =>
      have wanted (skip : Bool) : (if skip then (t.args.map (·.map φ)).drop 1 else t.args.map (·.map φ)) =
          (if skip then t.args.drop 1 else t.args).map (·.map φ) := by
        cases skip <;> simp
      have promotes : Signature.promotes ⟨s.code, s.args.map (·.map φ), s.ret.map φ, s.proto.map φ⟩
          ⟨t.code, t.args.map (·.map φ), t.ret.map φ, t.proto.map φ⟩ = s.promotes t := rfl
      simp only [mapTypes, subtypeParts, promotes, wanted, pairwise_map, equalPrototypes_map]
      cases v <;> rfl
    | _ => rfl
  | object ps =>
    cases n with
    | object qs =>
      simp only [mapTypes, subtypeParts, all_map, find?_map]
      congr 1
      funext q
      cases Property.find? ps q.id <;> rfl
    | _ => rfl
  | _ => cases n <;> rfl

end Node

namespace Graph

/-- The known nodes of one graph are well formed, have nodes of the same shape in another one, and lead to known nodes
only. A node that is not primitive has its image to itself. -/
structure Renaming (φ : TypeId → TypeId) (g h : Graph) (Known : TypeId → Prop) : Prop where
  formed : ∀ x, Known x → (g.node x).WellFormed
  node : ∀ x, Known x → h.node (φ x) = (g.node x).mapTypes φ
  child : ∀ x, Known x → ∀ y ∈ g.children x, Known y
  apart : ∀ x y, Known x → Known y → φ x = φ y → (g.node x).isPrim = false → x = y

end Graph

def Hypothesis.rename (φ : TypeId → TypeId) (h : Hypothesis) : Hypothesis := ⟨h.rel, φ h.left, φ h.right⟩

namespace Graph

def Assumed (g : Graph) (Known : TypeId → Prop) (seen : List Hypothesis) : Prop :=
  ∀ h ∈ seen, (Known h.left ∧ (g.node h.left).isPrim = false) ∧ (Known h.right ∧ (g.node h.right).isPrim = false)

namespace Renaming

variable {φ : TypeId → TypeId} {g h : Graph} {Known : TypeId → Prop} {c : Checker} {seen : List Hypothesis}
  {a b : TypeId}

theorem mem_rename (ren : Renaming φ g h Known) (assumed : g.Assumed Known seen) (rel : Relation) (left : Known a)
    (right : Known b) : ⟨rel, φ a, φ b⟩ ∈ seen.map (Hypothesis.rename φ) ↔ ⟨rel, a, b⟩ ∈ seen := by
  rw [List.mem_map]
  constructor
  · rintro ⟨⟨rel', x, y⟩, member, same⟩
    obtain ⟨⟨knownX, compoundX⟩, knownY, compoundY⟩ := assumed _ member
    obtain ⟨rfl, sameX, sameY⟩ := Hypothesis.mk.inj same
    obtain rfl : x = a := ren.apart x a knownX left sameX compoundX
    obtain rfl : y = b := ren.apart y b knownY right sameY compoundY
    exact member
  · exact fun member => ⟨_, member, rfl⟩

/-- Two nodes with one image are one node, or primitive of one kind. -/
theorem prim_of_image_eq (ren : Renaming φ g h Known) (left : Known a) (right : Known b) (same : φ a = φ b)
    (other : a ≠ b) : ∃ p, g.node a = .prim p ∧ g.node b = .prim p := by
  cases shape : g.node a with
  | prim p =>
    have image : (g.node b).mapTypes φ = (Node.prim p).mapTypes φ := by
      rw [← ren.node b right, ← same, ren.node a left, shape]
    exact ⟨p, rfl, Node.mapTypes_eq_prim_iff.1 image⟩
  | _ => exact absurd (ren.apart a b left right same (by rw [shape]; rfl)) other

theorem equalAtOnce?_rename (ren : Renaming φ g h Known) (quiet : c.oracle = Oracle.silent)
    (assumed : g.Assumed Known seen) (left : Known a) (right : Known b) :
    c.equalAtOnce? h (seen.map (Hypothesis.rename φ)) (φ a) (φ b) = c.equalAtOnce? g seen a b := by
  simp only [Checker.equalAtOnce?, ren.mem_rename assumed _ left right, ren.mem_rename assumed _ right left,
    ren.node a left, ren.node b right, Node.kindCode_mapTypes, Node.isPrim_mapTypes, quiet, Oracle.silent]
  by_cases same : φ a = φ b
  · by_cases one : a = b
    · simp [one]
    · obtain ⟨p, first, second⟩ := ren.prim_of_image_eq left right same one
      simp [same, first, second, Node.isPrim]
  · have distinct : a ≠ b := fun one => same (congrArg φ one)
    simp only [same, distinct]

theorem subtypeAtOnce?_rename (ren : Renaming φ g h Known) (quiet : c.oracle = Oracle.silent)
    (assumed : g.Assumed Known seen) (left : Known a) (right : Known b) :
    c.subtypeAtOnce? h (seen.map (Hypothesis.rename φ)) (φ a) (φ b) = c.subtypeAtOnce? g seen a b := by
  simp only [Checker.subtypeAtOnce?, ren.mem_rename assumed _ left right, ren.node a left, ren.node b right,
    Node.subtypeAtOnce?_mapTypes, quiet, Oracle.silent]
  by_cases same : φ a = φ b
  · by_cases one : a = b
    · simp [one]
    · obtain ⟨p, first, second⟩ := ren.prim_of_image_eq left right same one
      have yes : (Node.prim p).subtypeAtOnce? (.prim p) = some true := by cases p <;> rfl
      simp only [same, true_or, if_true, first, second, yes, Option.map_some]
      split <;> rfl
  · have distinct : a ≠ b := fun one => same (congrArg φ one)
    simp only [same, distinct]

/-- Nodes that are compared part by part are not primitive. -/
theorem assumed_equal (ren : Renaming φ g h Known) (assumed : g.Assumed Known seen) (left : Known a) (right : Known b)
    (later : c.equalAtOnce? g seen a b = none) : g.Assumed Known (⟨.equal, a, b⟩ :: seen) := by
  have compound := Checker.equalAtOnce?_none later
  have kinds : (g.node a).kindCode = (g.node b).kindCode := by
    by_contra differ
    simp only [Checker.equalAtOnce?, ne_eq, differ, not_false_eq_true, if_true] at later
    split at later <;> cases later
  refine List.forall_mem_cons.2 ⟨⟨⟨left, compound⟩, right, ?_⟩, assumed⟩
  cases shape : g.node b with
  | prim p =>
    obtain ⟨_, _, prim⟩ := Checker.same_prim (ren.formed a left) kinds.symm (by rw [shape]; rfl)
    rw [prim] at compound
    cases compound
  | _ => rfl

theorem assumed_subtype (assumed : g.Assumed Known seen) (left : Known a) (right : Known b)
    (later : c.subtypeAtOnce? g seen a b = none) : g.Assumed Known (⟨.subtype, a, b⟩ :: seen) := by
  obtain ⟨first, second⟩ := Node.compound_of_subtypeAtOnce? (Checker.subtypeAtOnce?_none later)
  exact List.forall_mem_cons.2 ⟨⟨⟨left, first⟩, right, second⟩, assumed⟩

theorem equalWithin_rename (ren : Renaming φ g h Known) (quiet : c.oracle = Oracle.silent) (budget : Nat)
    (assumed : g.Assumed Known seen) (left : Known a) (right : Known b) :
    c.equalWithin h budget (seen.map (Hypothesis.rename φ)) (some (φ a)) (some (φ b)) =
      c.equalWithin g budget seen (some a) (some b) := by
  induction budget generalizing seen a b with
  | zero =>
    unfold Checker.equalWithin
    rw [ren.equalAtOnce?_rename quiet assumed left right]
  | succ budget ih =>
    unfold Checker.equalWithin
    rw [ren.equalAtOnce?_rename quiet assumed left right]
    split
    · rfl
    next later =>
      have assumed' := ren.assumed_equal assumed left right later
      dsimp only
      rw [ren.node a left, ren.node b right, Node.equalParts_mapTypes]
      apply Node.equalParts_congr _ _ Trial.eq_congruence (ren.formed a left).parts (ren.formed b right).parts
      rintro _ _ ⟨x, hx, rfl⟩ ⟨y, hy, rfl⟩
      exact ih assumed' (ren.child a left x hx) (ren.child b right y hy)

theorem subtypeWithin_rename (ren : Renaming φ g h Known) (quiet : c.oracle = Oracle.silent) (budget : Nat)
    (assumed : g.Assumed Known seen) (left : Known a) (right : Known b) :
    c.subtypeWithin h budget (seen.map (Hypothesis.rename φ)) (some (φ a)) (some (φ b)) =
      c.subtypeWithin g budget seen (some a) (some b) := by
  induction budget generalizing seen a b with
  | zero =>
    unfold Checker.subtypeWithin
    rw [ren.subtypeAtOnce?_rename quiet assumed left right]
  | succ budget ih =>
    unfold Checker.subtypeWithin
    rw [ren.subtypeAtOnce?_rename quiet assumed left right]
    split
    · rfl
    next later =>
      have assumed' := assumed_subtype assumed left right later
      dsimp only
      rw [ren.node a left, ren.node b right, Node.subtypeParts_mapTypes]
      apply Node.subtypeParts_congr _ _ _ _ Trial.eq_congruence (ren.formed a left).parts (ren.formed b right).parts
      · rintro _ _ ⟨x, hx, rfl⟩ ⟨y, hy, rfl⟩
        exact ren.equalWithin_rename quiet budget assumed' (ren.child a left x hx) (ren.child b right y hy)
      · rintro _ _ ⟨x, hx, rfl⟩ ⟨y, hy, rfl⟩
        have knownX := ren.child a left x hx
        have knownY := ren.child b right y hy
        exact ⟨ih assumed' knownX knownY, ih assumed' knownY knownX⟩

/-- A check without an oracle ends alike in both graphs, whatever its bound. -/
theorem decide_eq (ren : Renaming φ g h Known) (quiet : c.oracle = Oracle.silent) (rel : Relation) (left : Known a)
    (right : Known b) : c.decide h rel (some (φ a)) (some (φ b)) = c.decide g rel (some a) (some b) := by
  have nothing : g.Assumed Known [] := by simp [Assumed]
  cases rel with
  | subtype => exact ren.subtypeWithin_rename quiet _ nothing left right
  | equal => exact ren.equalWithin_rename quiet _ nothing left right

end Renaming

end Graph

end Gradual
