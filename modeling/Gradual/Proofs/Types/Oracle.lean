import Gradual.Proofs.Types.Order

/-!
A truthful oracle changes no answer. It may refuse a pair at once that would have been accepted under an
open hypothesis, and then the whole check ends with a no; it never sends a check on to a pair that would
not have been compared without it, so no check overflows because of an oracle. Main statement:
`Checker.decide_consulting`, for oracles that tell the truth about the types of the graph, whatever they say of others.
-/
namespace Gradual

/-- Where one check ends with an answer so does the other, with a no in place of a yes at most. -/
def Trial.Anticipates (t u : Trial) : Prop := ∀ r, u.result = .ok r → ∃ r', t.result = .ok r' ∧ (r' = true → r = true)

namespace Trial

theorem Anticipates.refl (t : Trial) : t.Anticipates t := fun r ends => ⟨r, ends, id⟩

theorem anticipates_congruence : Congruence Anticipates where
  known answer := .refl (known answer)
  and {t u next next'} first rest := by
    intro r ends
    unfold Trial.and at ends ⊢
    cases before : u.result with
    | error e => simp [before] at ends
    | ok answer =>
      obtain ⟨answer', before', le⟩ := first answer before
      cases answer' with
      | false => exact ⟨false, by simp [before'], by simp⟩
      | true =>
        rw [le rfl] at before
        simp only [before] at ends
        simpa only [before'] using rest r ends

end Trial

namespace Checker

variable {c : Checker} {g : Graph} {a b : TypeId}

def plain (c : Checker) : Checker := { c with oracle := Oracle.silent }

theorem plain_truthful (c : Checker) (g : Graph) : c.plain.oracle.Truthful g c.plain.variance :=
  Oracle.silent_truthful g _

theorem equalAtOnce?_plain (c : Checker) (g : Graph) (seen : List Hypothesis) (a b : TypeId) :
    c.equalAtOnce? g seen a b = c.plain.equalAtOnce? g seen a b ∨
      ∃ r, c.oracle .equal a b = some r ∧ c.equalAtOnce? g seen a b = some (.told r) := by
  unfold equalAtOnce?
  split_ifs
  · exact .inl rfl
  · exact .inl rfl
  · exact .inl rfl
  · cases told : c.oracle .equal a b with
    | none => exact .inl rfl
    | some r => exact .inr ⟨r, rfl, rfl⟩

/-- What the oracle accepts is never refused without it. -/
theorem told_equal_anticipates (truthful : c.oracle.Truthful g c.variance) (budget : Nat) (seen : List Hypothesis)
    (left : g.WellFormed a) (right : g.WellFormed b) {r : Bool} (told : c.oracle .equal a b = some r) :
    (Trial.told r).Anticipates (c.plain.equalWithin g budget seen (some a) (some b)) := by
  intro answer ends
  refine ⟨r, rfl, fun yes => ?_⟩
  cases answer with
  | true => rfl
  | false =>
    have unequal := equalWithin_no (c.plain_truthful g) budget seen left right ends
    exact absurd ((truthful.equal a b r told).1 yes) unequal

theorem equalWithin_anticipates (truthful : c.oracle.Truthful g c.variance) (budget : Nat) (seen : List Hypothesis)
    (left : g.WellFormed a) (right : g.WellFormed b) :
    (c.equalWithin g budget seen (some a) (some b)).Anticipates
      (c.plain.equalWithin g budget seen (some a) (some b)) := by
  induction budget generalizing seen a b with
  | zero =>
    obtain same | ⟨r, told, atOnce⟩ := c.equalAtOnce?_plain g seen a b
    · unfold equalWithin
      rw [same]
      exact .refl _
    · have anticipates := told_equal_anticipates truthful 0 seen left right told
      unfold equalWithin at anticipates ⊢
      rwa [atOnce]
  | succ budget ih =>
    obtain same | ⟨r, told, atOnce⟩ := c.equalAtOnce?_plain g seen a b
    · unfold equalWithin
      rw [same]
      split
      · exact .refl _
      · apply Node.equalParts_congr _ _ Trial.anticipates_congruence left.node.parts right.node.parts
        rintro _ _ ⟨x, hx, rfl⟩ ⟨y, hy, rfl⟩
        exact ih _ (left.child hx) (right.child hy)
    · have anticipates := told_equal_anticipates truthful (budget + 1) seen left right told
      unfold equalWithin at anticipates ⊢
      rwa [atOnce]

theorem subtypeAtOnce?_plain (c : Checker) (g : Graph) (seen : List Hypothesis) (a b : TypeId) :
    c.subtypeAtOnce? g seen a b = c.plain.subtypeAtOnce? g seen a b ∨
      ∃ r, c.oracle .subtype a b = some r ∧ c.subtypeAtOnce? g seen a b = some (.told r) := by
  unfold subtypeAtOnce?
  split_ifs
  · exact .inl rfl
  · cases told : c.oracle .subtype a b with
    | none => exact .inl rfl
    | some r => exact .inr ⟨r, rfl, rfl⟩

theorem told_subtype_anticipates (truthful : c.oracle.Truthful g c.variance) (budget : Nat) (seen : List Hypothesis)
    (left : g.WellFormed a) (right : g.WellFormed b) {r : Bool} (told : c.oracle .subtype a b = some r) :
    (Trial.told r).Anticipates (c.plain.subtypeWithin g budget seen (some a) (some b)) := by
  intro answer ends
  refine ⟨r, rfl, fun yes => ?_⟩
  cases answer with
  | true => rfl
  | false =>
    have unrelated := subtypeWithin_no (c.plain_truthful g) budget seen left right ends
    exact absurd ((truthful.subtype a b r told).1 yes) unrelated

theorem subtypeWithin_anticipates (truthful : c.oracle.Truthful g c.variance) (budget : Nat) (seen : List Hypothesis)
    (left : g.WellFormed a) (right : g.WellFormed b) :
    (c.subtypeWithin g budget seen (some a) (some b)).Anticipates
      (c.plain.subtypeWithin g budget seen (some a) (some b)) := by
  induction budget generalizing seen a b with
  | zero =>
    obtain same | ⟨r, told, atOnce⟩ := c.subtypeAtOnce?_plain g seen a b
    · unfold subtypeWithin
      rw [same]
      exact .refl _
    · have anticipates := told_subtype_anticipates truthful 0 seen left right told
      unfold subtypeWithin at anticipates ⊢
      rwa [atOnce]
  | succ budget ih =>
    obtain same | ⟨r, told, atOnce⟩ := c.subtypeAtOnce?_plain g seen a b
    · unfold subtypeWithin
      rw [same]
      split
      · exact .refl _
      · apply Node.subtypeParts_congr _ _ _ _ Trial.anticipates_congruence left.node.parts right.node.parts
        · rintro _ _ ⟨x, hx, rfl⟩ ⟨y, hy, rfl⟩
          exact equalWithin_anticipates truthful _ _ (left.child hx) (right.child hy)
        · rintro _ _ ⟨x, hx, rfl⟩ ⟨y, hy, rfl⟩
          exact ⟨ih _ (left.child hx) (right.child hy), ih _ (right.child hy) (left.child hx)⟩
    · have anticipates := told_subtype_anticipates truthful (budget + 1) seen left right told
      unfold subtypeWithin at anticipates ⊢
      rwa [atOnce]

/-- An answer that is found without the oracle is found with it. -/
theorem decide_eq_plain (truthful : c.oracle.Truthful g c.variance) {rel : Relation} {r : Bool}
    (left : g.WellFormed a) (right : g.WellFormed b)
    (ends : (c.plain.decide g rel (some a) (some b)).result = .ok r) :
    (c.decide g rel (some a) (some b)).result = .ok r := by
  have anticipates : (c.decide g rel (some a) (some b)).Anticipates (c.plain.decide g rel (some a) (some b)) := by
    cases rel with
    | subtype => exact subtypeWithin_anticipates truthful _ _ left right
    | equal => exact equalWithin_anticipates truthful _ _ left right
  obtain ⟨r', ends', _⟩ := anticipates r ends
  have truth := decide_iff truthful left right ends'
  have truth' := decide_iff (c.plain_truthful g) left right ends
  have : r' = r := Bool.eq_iff_iff.2 (truth.trans truth'.symm)
  rw [ends', this]

end Checker

theorem Trial.Whole.overflow {t : Trial} {e : CheckError} (whole : t.Whole) (fails : t.result = .error e) :
    e = .overflow := by
  cases e with
  | overflow => rfl
  | missing rel => exact absurd fails (whole rel)

/-- What an oracle says of well-formed types; of others it is silent. -/
noncomputable def Oracle.formed (o : Oracle) (g : Graph) : Oracle := fun rel x y =>
  open Classical in if g.WellFormed x ∧ g.WellFormed y then o rel x y else none

theorem Oracle.formed_eq {g : Graph} {x y : TypeId} (left : g.WellFormed x) (right : g.WellFormed y) (o : Oracle)
    (rel : Relation) : o.formed g rel x y = o rel x y :=
  if_pos ⟨left, right⟩

theorem Oracle.formed_eq_some {g : Graph} {x y : TypeId} {o : Oracle} {rel : Relation} {answer : Bool}
    (told : o.formed g rel x y = some answer) : g.WellFormed x ∧ g.WellFormed y ∧ o rel x y = some answer := by
  unfold formed at told
  split at told
  next both => exact ⟨both.1, both.2, told⟩
  next => cases told

namespace Checker

variable {c : Checker} {g : Graph} {a b : TypeId}

/-- The checker with an oracle that is silent on types that are not well formed. -/
noncomputable def formed (c : Checker) (g : Graph) : Checker := { c with oracle := c.oracle.formed g }

/-- Well-formed types have well-formed parts, so a check asks the oracle about no others. -/
theorem equalWithin_formed (budget : Nat) (seen : List Hypothesis) (left : g.WellFormed a) (right : g.WellFormed b) :
    (c.formed g).equalWithin g budget seen (some a) (some b) = c.equalWithin g budget seen (some a) (some b) := by
  have atOnce (seen : List Hypothesis) {x y : TypeId} (left : g.WellFormed x) (right : g.WellFormed y) :
      (c.formed g).equalAtOnce? g seen x y = c.equalAtOnce? g seen x y := by
    simp only [equalAtOnce?, formed, Oracle.formed_eq left right]
  induction budget generalizing seen a b with
  | zero =>
    unfold equalWithin
    rw [atOnce seen left right]
  | succ budget ih =>
    unfold equalWithin
    rw [atOnce seen left right]
    split
    · rfl
    · apply Node.equalParts_congr _ _ Trial.eq_congruence left.node.parts right.node.parts
      rintro _ _ ⟨x, hx, rfl⟩ ⟨y, hy, rfl⟩
      exact ih _ (left.child hx) (right.child hy)

theorem subtypeWithin_formed (budget : Nat) (seen : List Hypothesis) (left : g.WellFormed a)
    (right : g.WellFormed b) :
    (c.formed g).subtypeWithin g budget seen (some a) (some b) = c.subtypeWithin g budget seen (some a) (some b) := by
  have atOnce (seen : List Hypothesis) {x y : TypeId} (left : g.WellFormed x) (right : g.WellFormed y) :
      (c.formed g).subtypeAtOnce? g seen x y = c.subtypeAtOnce? g seen x y := by
    simp only [subtypeAtOnce?, formed, Oracle.formed_eq left right]
  induction budget generalizing seen a b with
  | zero =>
    unfold subtypeWithin
    rw [atOnce seen left right]
  | succ budget ih =>
    unfold subtypeWithin
    rw [atOnce seen left right]
    split
    · rfl
    · apply Node.subtypeParts_congr _ _ _ _ Trial.eq_congruence left.node.parts right.node.parts
      · rintro _ _ ⟨x, hx, rfl⟩ ⟨y, hy, rfl⟩
        exact equalWithin_formed _ _ (left.child hx) (right.child hy)
      · rintro _ _ ⟨x, hx, rfl⟩ ⟨y, hy, rfl⟩
        exact ⟨ih _ (left.child hx) (right.child hy), ih _ (right.child hy) (left.child hx)⟩

theorem decide_formed (rel : Relation) (left : g.WellFormed a) (right : g.WellFormed b) :
    (c.formed g).decide g rel (some a) (some b) = c.decide g rel (some a) (some b) := by
  cases rel with
  | subtype => exact subtypeWithin_formed _ _ left right
  | equal => exact equalWithin_formed _ _ left right

theorem formed_truthful (truthful : ∀ rel x y answer, g.WellFormed x → g.WellFormed y →
    c.oracle rel x y = some answer → (answer = true ↔ g.Related c.variance rel x y)) :
    (c.formed g).oracle.Truthful g c.variance := by
  refine ⟨fun x y answer told => ?_, fun x y answer told => ?_⟩
  · obtain ⟨left, right, told⟩ := Oracle.formed_eq_some told
    exact truthful .equal x y answer left right told
  · obtain ⟨left, right, told⟩ := Oracle.formed_eq_some told
    exact truthful .subtype x y answer left right told

/-- With an oracle that tells the truth about the types of the graph, a checker gives every answer that it gives
without one, and every answer it gives is the truth. What it does not answer is not answered without the oracle
either: both overflow. -/
theorem decide_consulting (g : Graph) (c : Checker) (truthful : ∀ rel x y answer, g.WellFormed x → g.WellFormed y →
    c.oracle rel x y = some answer → (answer = true ↔ g.Related c.variance rel x y))
    (left : g.WellFormed a) (right : g.WellFormed b) (rel : Relation) :
    (∀ r, (c.plain.decide g rel (some a) (some b)).result = .ok r →
      (c.decide g rel (some a) (some b)).result = .ok r) ∧
    (∀ r, (c.decide g rel (some a) (some b)).result = .ok r → (r = true ↔ g.Related c.variance rel a b)) ∧
    ∀ e, (c.decide g rel (some a) (some b)).result = .error e →
      e = .overflow ∧ (c.plain.decide g rel (some a) (some b)).result = .error .overflow := by
  have found {r : Bool} (ends : (c.plain.decide g rel (some a) (some b)).result = .ok r) :
      (c.decide g rel (some a) (some b)).result = .ok r := by
    rw [← decide_formed rel left right]
    exact decide_eq_plain (c := c.formed g) (formed_truthful truthful) left right ends
  refine ⟨fun r => found, fun r ends => ?_, fun e fails => ?_⟩
  · rw [← decide_formed rel left right] at ends
    exact decide_iff (c := c.formed g) (formed_truthful truthful) left right ends
  · have whole : (c.decide g rel (some a) (some b)).Whole := decide_whole rel left right
    refine ⟨whole.overflow fails, ?_⟩
    cases plain : (c.plain.decide g rel (some a) (some b)).result with
    | ok r => rw [found plain] at fails; cases fails
    | error e' =>
      have whole' : (c.plain.decide g rel (some a) (some b)).Whole := decide_whole rel left right
      rw [whole'.overflow plain]

def methodsEqual : Oracle := fun rel a b => if rel = .equal ∧ a = 7 ∧ b = 9 then some true else none

/-- With a bound of one hypothesis a stream is compared with its unrolling by asking, and overflows otherwise. -/
theorem decide_consulting_streams :
    ((⟨1, .covariant, Oracle.silent⟩ : Checker).decide streams .equal (some 6) (some 8)).result = .error .overflow ∧
      ((⟨1, .covariant, methodsEqual⟩ : Checker).decide streams .equal (some 6) (some 8)).result = .ok true ∧
      streams.Equal 6 8 := by
  have equal : streams.Equal 7 9 :=
    (equal_iff (c := ⟨50, .covariant, Oracle.silent⟩) (Oracle.silent_truthful streams .covariant)
      (streams_wellFormed 7 (by decide)) (streams_wellFormed 9 (by decide)) (r := true) rfl).1 rfl
  have truthful (rel : Relation) (x y : TypeId) (answer : Bool) (_ : streams.WellFormed x)
      (_ : streams.WellFormed y) (told : methodsEqual rel x y = some answer) :
      answer = true ↔ streams.Related .covariant rel x y := by
    unfold methodsEqual at told
    split at told
    next asked =>
      obtain ⟨rfl, rfl, rfl⟩ := asked
      cases told
      exact iff_of_true rfl equal
    next => cases told
  have consulting := decide_consulting streams ⟨1, .covariant, methodsEqual⟩ truthful
    (streams_wellFormed 6 (by decide)) (streams_wellFormed 8 (by decide)) .equal
  exact ⟨rfl, rfl, (consulting.2.1 true rfl).1 rfl⟩

end Checker

end Gradual
