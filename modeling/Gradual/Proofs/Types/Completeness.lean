import Gradual.Proofs.Types.Comparison

/-!
A check of two types that have all their parts never finds a part missing: it ends with an answer, or
with an overflow where more hypotheses were needed than the checker may hold.
-/
namespace Gradual

def Trial.Whole (t : Trial) : Prop := ∀ rel, t.result ≠ .error (.missing rel)

namespace Trial

theorem yes_whole : yes.Whole := nofun

theorem no_whole : no.Whole := nofun

theorem known_whole (answer : Bool) : (known answer).Whole := nofun

theorem told_whole (answer : Bool) : (told answer).Whole := nofun

theorem whole_congruence : Congruence fun t _ => t.Whole where
  known := known_whole
  and first rest := by
    unfold Trial.and
    split
    · exact rest
    · exact first

end Trial

namespace Checker

variable {c : Checker} {g : Graph} {a b : TypeId}

theorem equalAtOnce?_whole {seen : List Hypothesis} {t : Trial} (h : c.equalAtOnce? g seen a b = some t) :
    t.Whole := by
  unfold equalAtOnce? at h
  split at h
  · cases h; exact Trial.yes_whole
  split at h
  · cases h; exact Trial.no_whole
  split at h
  · cases h; exact Trial.yes_whole
  · obtain ⟨r, _, rfl⟩ := Option.map_eq_some_iff.1 h
    exact Trial.told_whole r

theorem equalWithin_whole (budget : Nat) (seen : List Hypothesis) (left : g.WellFormed a) (right : g.WellFormed b) :
    (c.equalWithin g budget seen (some a) (some b)).Whole := by
  induction budget generalizing seen a b with
  | zero =>
    unfold equalWithin
    split
    next known => exact equalAtOnce?_whole known
    · exact nofun
  | succ budget ih =>
    unfold equalWithin
    split
    next known => exact equalAtOnce?_whole known
    · let compare := c.equalWithin g budget (⟨.equal, a, b⟩ :: seen)
      apply Node.equalParts_congr compare compare Trial.whole_congruence left.node.parts right.node.parts
      rintro _ _ ⟨t, ht, rfl⟩ ⟨u, hu, rfl⟩
      exact ih _ (left.child ht) (right.child hu)

theorem subtypeAtOnce?_whole {seen : List Hypothesis} {t : Trial} (h : c.subtypeAtOnce? g seen a b = some t) :
    t.Whole := by
  unfold subtypeAtOnce? at h
  split at h
  · cases h; exact Trial.yes_whole
  split at h
  · cases h; exact Trial.told_whole _
  · obtain ⟨r, _, rfl⟩ := Option.map_eq_some_iff.1 h
    exact Trial.known_whole r

theorem subtypeWithin_whole (budget : Nat) (seen : List Hypothesis) (left : g.WellFormed a) (right : g.WellFormed b) :
    (c.subtypeWithin g budget seen (some a) (some b)).Whole := by
  induction budget generalizing seen a b with
  | zero =>
    unfold subtypeWithin
    split
    next known => exact subtypeAtOnce?_whole known
    · exact nofun
  | succ budget ih =>
    unfold subtypeWithin
    split
    next known => exact subtypeAtOnce?_whole known
    · let equal := c.equalWithin g budget (⟨.subtype, a, b⟩ :: seen)
      let subtype := c.subtypeWithin g budget (⟨.subtype, a, b⟩ :: seen)
      apply Node.subtypeParts_congr equal equal subtype subtype Trial.whole_congruence left.node.parts right.node.parts
      · rintro _ _ ⟨t, ht, rfl⟩ ⟨u, hu, rfl⟩
        exact equalWithin_whole _ _ (left.child ht) (right.child hu)
      · rintro _ _ ⟨t, ht, rfl⟩ ⟨u, hu, rfl⟩
        exact ⟨ih _ (left.child ht) (right.child hu), ih _ (right.child hu) (left.child ht)⟩

theorem decide_whole (rel : Relation) (left : g.WellFormed a) (right : g.WellFormed b) :
    (c.decide g rel (some a) (some b)).Whole := by
  cases rel with
  | subtype => exact subtypeWithin_whole _ _ left right
  | equal => exact equalWithin_whole _ _ left right

end Checker

end Gradual
