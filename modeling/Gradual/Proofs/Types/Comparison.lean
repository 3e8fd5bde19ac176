import Gradual.Proofs.Types.Relations

/-!
Comparing two nodes asks about pairs of their parts and about nothing else, and joins the answers in one
order. So whatever can be said of each of these questions, and survives the joining, can be said of the
whole comparison; a comparison is told from another one by what they are given for the parts.
-/
namespace Gradual

namespace Trial

/-- A relation of two checks that holds between whole comparisons if it does on the parts. -/
structure Congruence (R : Trial → Trial → Prop) : Prop where
  known : ∀ answer, R (Trial.known answer) (Trial.known answer)
  and : ∀ {t u : Trial} {next next' : Unit → Trial}, R t u → R (next ()) (next' ()) → R (t.and next) (u.and next')

namespace Congruence

variable {R : Trial → Trial → Prop}

theorem all (congruence : Congruence R) {f f' : α → Trial} {xs : List α} (each : ∀ x ∈ xs, R (f x) (f' x)) :
    R (Trial.all f xs) (Trial.all f' xs) := by
  induction xs with
  | nil => exact congruence.known true
  | cons x xs ih =>
    apply congruence.and (each x List.mem_cons_self)
    exact ih fun y inside => each y (List.mem_cons_of_mem _ inside)

theorem pairwise (congruence : Congruence R) {f f' : α → β → Trial} {xs : List α} {ys : List β}
    (each : ∀ x ∈ xs, ∀ y ∈ ys, R (f x y) (f' x y)) : R (Trial.pairwise f xs ys) (Trial.pairwise f' xs ys) := by
  induction xs generalizing ys with
  | nil => exact congruence.known true
  | cons x xs ih =>
    cases ys with
    | nil => exact congruence.known true
    | cons y ys =>
      apply congruence.and (each x List.mem_cons_self y List.mem_cons_self)
      exact ih fun a ha b hb => each a (List.mem_cons_of_mem _ ha) b (List.mem_cons_of_mem _ hb)

end Congruence

/-- Checks that are the same part by part are the same. -/
theorem eq_congruence : Congruence Eq where
  known _ := rfl
  and {t u next next'} first rest := by
    subst first
    simp only [Trial.and, rest]

end Trial

namespace Node

def Part (n : Node) (c : Child) : Prop := ∃ t ∈ n.children, c = some t

def Parts (P : Child → Prop) : Node → Prop
  | .closure s => (∀ a ∈ s.args, P a) ∧ P s.ret ∧ (s.proto.isSome → P s.proto)
  | .object ps => ∀ p ∈ ps, P p.type
  | .array e | .map e => P e
  | .prim _ | .odd _ => True

theorem parts_of_all {P : Child → Prop} (all : ∀ c, P c) (n : Node) : n.Parts P := by
  cases n with
  | prim | odd => trivial
  | closure s => exact ⟨fun a _ => all a, all _, fun _ => all _⟩
  | object ps => exact fun p _ => all p.type
  | array e | map e => exact all e

theorem WellFormed.parts {n : Node} (formed : n.WellFormed) : n.Parts n.Part := by
  cases n with
  | prim | odd => trivial
  | closure s =>
    have part {c : Child} (some : c.isSome) (inside : c ∈ s.ret :: s.args ++ [s.proto]) :
        (Node.closure s).Part c := by
      obtain ⟨t, rfl⟩ := Option.isSome_iff_exists.1 some
      exact ⟨t, List.mem_filterMap.2 ⟨_, inside, rfl⟩, rfl⟩
    exact ⟨fun a ha => part (Signature.WellFormed.args formed a ha) (by simp [ha]),
      part (Signature.WellFormed.ret formed) (by simp), fun some => part some (by simp)⟩
  | object ps =>
    intro p member
    obtain ⟨t, type⟩ := Option.isSome_iff_exists.1 (formed.2 p member)
    exact ⟨t, List.mem_filterMap.2 ⟨p, member, type⟩, type⟩
  | array e | map e =>
    obtain ⟨t, rfl⟩ := Option.isSome_iff_exists.1 formed
    exact ⟨t, by simp [children], rfl⟩

variable {R : Trial → Trial → Prop} (equal equal' subtype subtype' : Child → Child → Trial) {m n : Node}
  {P P' : Child → Prop}

theorem equalPrototypes_congr (congruence : Trial.Congruence R) {a b : Child} (left : a.isSome → P a)
    (right : b.isSome → P' b) (parts : ∀ a b, P a → P' b → R (equal a b) (equal' a b)) :
    R (equalPrototypes equal a b) (equalPrototypes equal' a b) := by
  unfold equalPrototypes
  split
  · exact congruence.known _
  · next both =>
    rw [Bool.or_eq_true, not_or, Option.isNone_iff_eq_none, Option.isNone_iff_eq_none] at both
    exact parts _ _ (left (Option.isSome_iff_ne_none.2 both.1)) (right (Option.isSome_iff_ne_none.2 both.2))

theorem equalParts_congr (congruence : Trial.Congruence R) (left : m.Parts P) (right : n.Parts P')
    (parts : ∀ a b, P a → P' b → R (equal a b) (equal' a b)) :
    R (m.equalParts equal n) (m.equalParts equal' n) := by
  have no : R Trial.no Trial.no := congruence.known false
  unfold equalParts
  split
  · split
    · exact no
    · obtain ⟨args, ret, proto⟩ := left
      obtain ⟨args', ret', proto'⟩ := right
      refine congruence.and ?_ (congruence.and (parts _ _ ret ret')
        (congruence.pairwise fun a ha b hb => parts a b (args a ha) (args' b hb)))
      split
      · exact equalPrototypes_congr equal equal' congruence proto proto' parts
      · exact congruence.known true
  · split
    · exact no
    · apply congruence.all
      intro p hp
      split
      · exact no
      · next q found =>
        split
        · exact no
        · exact parts _ _ (left p hp) (right q (List.mem_of_find?_eq_some found))
  · exact parts _ _ left right
  · exact parts _ _ left right
  · exact no

theorem subtypeParts_congr {v : Variance} (congruence : Trial.Congruence R) (left : m.Parts P) (right : n.Parts P')
    (equals : ∀ a b, P a → P' b → R (equal a b) (equal' a b))
    (parts : ∀ a b, P a → P' b → R (subtype a b) (subtype' a b) ∧ R (subtype b a) (subtype' b a)) :
    R (m.subtypeParts v equal subtype n) (m.subtypeParts v equal' subtype' n) := by
  unfold subtypeParts
  split
  · next s t =>
    obtain ⟨args, ret, proto⟩ := left
    obtain ⟨args', ret', proto'⟩ := right
    refine congruence.and (parts _ _ ret ret').1 (congruence.and (congruence.pairwise fun a ha b hb => ?_) ?_)
    · have inside : b ∈ t.args := by
        split at hb
        · exact List.mem_of_mem_drop hb
        · exact hb
      have both := parts a b (args a ha) (args' b inside)
      cases v with
      | covariant => exact both.1
      | contravariant => exact both.2
    · split
      · exact equalPrototypes_congr equal equal' congruence proto proto' equals
      · exact congruence.known true
  · apply congruence.all
    intro q hq
    split
    · exact congruence.known false
    · next p found => exact equals _ _ (left p (List.mem_of_find?_eq_some found)) (right q hq)
  · exact equals _ _ left right
  · exact equals _ _ left right
  · exact congruence.known false

end Node

end Gradual
