import Gradual.Proofs.Types.Comparison

/-!
The bound on hypotheses is not part of any answer: a check that does not run into it comes to the same result, by the
same questions to the oracle, under every larger bound. Main statement: `Checker.decide_deepen`.
-/
namespace Gradual

def Trial.Settles (t u : Trial) : Prop := t.result ≠ .error .overflow → u = t

theorem Trial.Settles.refl (t : Trial) : t.Settles t := fun _ => rfl

theorem Trial.settles_congruence : Trial.Congruence Trial.Settles where
  known answer := .refl (Trial.known answer)
  and {t u next next'} first rest := by
    intro finished
    unfold Trial.and at finished ⊢
    cases ended : t.result with
    | error e =>
      simp only [ended] at finished
      obtain rfl := first (ended ▸ finished)
      simp only [ended]
    | ok answer =>
      obtain rfl := first (by simp [ended])
      cases answer with
      | false => simp only [ended]
      | true =>
        simp only [ended] at finished ⊢
        rw [rest finished]

namespace Checker

variable {c c' : Checker} {g : Graph}

/-- The recursion is that of the check: where a hypothesis is added, both budgets go down by one. -/
theorem equalWithin_settles (oracle : c'.oracle = c.oracle) {budget budget' : Nat} (le : budget ≤ budget')
    (seen : List Hypothesis) (a b : Child) :
    (c.equalWithin g budget seen a b).Settles (c'.equalWithin g budget' seen a b) := by
  cases a with
  | none => simp [equalWithin, Trial.Settles]
  | some x =>
    cases b with
    | none => simp [equalWithin, Trial.Settles]
    | some y =>
      have atOnce : c'.equalAtOnce? g seen x y = c.equalAtOnce? g seen x y := by simp only [equalAtOnce?, oracle]
      unfold equalWithin
      rw [atOnce]
      split
      · exact .refl _
      · cases budget with
        | zero => exact fun finished => absurd rfl finished
        | succ budget =>
          cases budget' with
          | zero => omega
          | succ budget' =>
            have all (n : Node) : n.Parts fun _ => True := Node.parts_of_all (fun _ => trivial) n
            apply Node.equalParts_congr _ _ Trial.settles_congruence (all _) (all _)
            intro p q _ _
            exact equalWithin_settles oracle (Nat.le_of_succ_le_succ le) _ p q

theorem subtypeWithin_settles (oracle : c'.oracle = c.oracle) (variance : c'.variance = c.variance)
    {budget budget' : Nat} (le : budget ≤ budget') (seen : List Hypothesis) (a b : Child) :
    (c.subtypeWithin g budget seen a b).Settles (c'.subtypeWithin g budget' seen a b) := by
  cases a with
  | none => simp [subtypeWithin, Trial.Settles]
  | some x =>
    cases b with
    | none => simp [subtypeWithin, Trial.Settles]
    | some y =>
      have atOnce : c'.subtypeAtOnce? g seen x y = c.subtypeAtOnce? g seen x y := by
        simp only [subtypeAtOnce?, oracle]
      unfold subtypeWithin
      rw [atOnce]
      split
      · exact .refl _
      · cases budget with
        | zero => exact fun finished => absurd rfl finished
        | succ budget =>
          cases budget' with
          | zero => omega
          | succ budget' =>
            have all (n : Node) : n.Parts fun _ => True := Node.parts_of_all (fun _ => trivial) n
            have le := Nat.le_of_succ_le_succ le
            dsimp only
            rw [variance]
            apply Node.subtypeParts_congr _ _ _ _ Trial.settles_congruence (all _) (all _)
            · intro p q _ _
              exact equalWithin_settles oracle le _ p q
            · intro p q _ _
              exact ⟨subtypeWithin_settles oracle variance le _ p q, subtypeWithin_settles oracle variance le _ q p⟩

/-- A larger bound changes no answer. -/
theorem decide_deepen (oracle : c'.oracle = c.oracle) (variance : c'.variance = c.variance)
    (le : c.maxDepth ≤ c'.maxDepth) (rel : Relation) (a b : Child)
    (finished : (c.decide g rel a b).result ≠ .error .overflow) : c'.decide g rel a b = c.decide g rel a b := by
  have le := Int.toNat_le_toNat le
  cases rel with
  | subtype => exact subtypeWithin_settles oracle variance le [] a b finished
  | equal => exact equalWithin_settles oracle le [] a b finished

end Checker

end Gradual
