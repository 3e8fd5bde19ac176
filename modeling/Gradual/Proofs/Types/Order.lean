import Gradual.Proofs.Types.Completeness
import Gradual.Proofs.Types.Unfolding

/-!
Subtyping is a preorder. Composing two uses of its rules gives a third one, with the parts composed
alike: through the receiver that a function skips, through prototypes, and with arguments the other way
round where they are contravariant. Together with what is known of equality this says how the answers
of checkers hang together, whatever their bounds.
-/
namespace Gradual

theorem Variance.orient_trans (v : Variance) {S T : TypeId → TypeId → Prop}
    (join : ∀ x y z, S x y → S y z → T x z) {a b c : Child} (h : v.orient (Option.Rel S) a b)
    (k : v.orient (Option.Rel S) b c) : v.orient (Option.Rel T) a c := by
  cases v with
  | covariant => exact related_trans join h k
  | contravariant => exact related_trans join k h

namespace Signature

variable {s t u : Signature}

/-- Two steps of answering make one: what a skipped receiver leaves is compared on both steps. -/
theorem Answers.trans {R : Child → Child → Prop} {xs ys : List Child} (h : s.Answers t xs) (k : t.Answers u ys)
    (args : List.Forall₂ R t.args ys) : ∃ zs, s.Answers u zs ∧ List.Forall₂ R xs zs := by
  rcases h with ⟨same, rfl⟩ | ⟨function, method, recv, split⟩
  · refine ⟨ys, ?_, args⟩
    rcases k with ⟨same', rfl⟩ | ⟨function, rest⟩
    · exact .inl ⟨same.trans same', rfl⟩
    · exact .inr ⟨same.trans function, rest⟩
  · rcases k with ⟨same, rfl⟩ | ⟨function', _⟩
    · rw [split] at args
      obtain ⟨recv', zs, _, rest, split'⟩ := List.forall₂_cons_left_iff.1 args
      exact ⟨zs, .inr ⟨function, same ▸ method, recv', split'⟩, rest⟩
    · rw [method] at function'
      cases function'

end Signature

namespace Node

theorem SubtypeBy.trans {v : Variance} {E S T : TypeId → TypeId → Prop} (equal : ∀ x y z, E x y → E y z → E x z)
    (join : ∀ x y z, S x y → S y z → T x z) {l m n : Node} (h : l.SubtypeBy v E S m) (k : m.SubtypeBy v E S n) :
    l.SubtypeBy v E T n := by
  unfold SubtypeBy at h
  split at h
  next p q =>
    cases n with
    | prim r =>
      rcases h with rfl | ⟨rfl, rfl⟩
      · exact k
      · rcases k with rfl | ⟨impossible, _⟩
        · exact .inr ⟨rfl, rfl⟩
        · cases impossible
    | _ => exact k.elim
  next s t =>
    cases n with
    | closure u =>
      obtain ⟨wanted, answers, ret, args, proto⟩ := h
      obtain ⟨wanted', answers', ret', args', proto'⟩ := k
      obtain ⟨composed, answers'', rest⟩ := answers.trans answers' args'
      refine ⟨composed, answers'', related_trans join ret ret', ?_, fun ctor => ?_⟩
      · exact forall₂_trans (fun a b c => @Variance.orient_trans v S T join a b c) args rest
      · -- a constructor answers only to a constructor
        have ctor' : t.code = .constructor := by
          rcases answers with ⟨same, _⟩ | ⟨function, _⟩
          · exact same ▸ ctor
          · rw [function] at ctor
            cases ctor
        exact related_trans equal (proto ctor) (proto' ctor')
    | _ => exact k.elim
  next ps qs =>
    cases n with
    | object rs =>
      intro r hr
      obtain ⟨q, hq, same, type⟩ := k r hr
      obtain ⟨p, hp, same', type'⟩ := h q hq
      exact ⟨p, hp, same'.trans same, related_trans equal type' type⟩
    | _ => exact k.elim
  next =>
    cases n with
    | array => exact related_trans equal h k
    | _ => exact k.elim
  next =>
    cases n with
    | map => exact related_trans equal h k
    | _ => exact k.elim
  next => exact h.elim

end Node

namespace Graph

variable {g : Graph} {v : Variance} {a b c : TypeId}

theorem Subtype.trans (h : g.Subtype v a b) (k : g.Subtype v b c) : g.Subtype v a c := by
  refine Subtype.coinduct (fun a c => ∃ b, g.Subtype v a b ∧ g.Subtype v b c) ?_ ⟨b, h, k⟩
  rintro a c ⟨b, h, k⟩
  exact Node.SubtypeBy.trans (fun x y z => @Equal.trans x y z g) (fun _ y _ h k => ⟨y, h, k⟩) h.parts k.parts

theorem Equal.subtype (h : g.Equal a b) (right : g.WellFormed b) : g.Subtype v a b :=
  Subtype.congr h (Subtype.refl right) (Equal.refl right)

/-- Elements are invariant, so below a container there are only types equal to it. -/
theorem Subtype.equal_of_container {elem : Child} (sub : g.Subtype v a b)
    (shape : g.node a = .array elem ∨ g.node a = .map elem) : g.Equal a b := by
  apply Equal.of_parts
  have parts := sub.parts
  generalize g.node b = n at parts ⊢
  rcases shape with shape | shape
  · rw [shape] at parts ⊢
    cases n <;> exact parts
  · rw [shape] at parts ⊢
    cases n <;> exact parts

def Related (g : Graph) (v : Variance) : Relation → TypeId → TypeId → Prop
  | .subtype => g.Subtype v
  | .equal => g.Equal

theorem Related.trans {rel : Relation} (h : g.Related v rel a b) (k : g.Related v rel b c) : g.Related v rel a c := by
  cases rel with
  | subtype => exact Subtype.trans h k
  | equal => exact Equal.trans h k

/-- Equal types are related alike, on either side. -/
theorem Equal.related_congr {a' b' : TypeId} {rel : Relation} (left : g.Equal a a') (right : g.Equal b b') :
    g.Related v rel a b ↔ g.Related v rel a' b' := by
  cases rel with
  | subtype => exact ⟨fun h => Subtype.congr left.symm h right, fun h => Subtype.congr left h right.symm⟩
  | equal => exact ⟨fun h => left.symm.trans (h.trans right), fun h => left.trans (h.trans right.symm)⟩

def verdict (g : Graph) (v : Variance) (depth : Int) (rel : Relation) (a b : TypeId) : Except CheckError Bool :=
  ((⟨depth, v, Oracle.silent⟩ : Checker).decide g rel (some a) (some b)).result

end Graph

theorem Checker.decide_iff {c : Checker} {g : Graph} {rel : Relation} {a b : TypeId} {r : Bool}
    (truthful : c.oracle.Truthful g c.variance) (left : g.WellFormed a) (right : g.WellFormed b)
    (h : (c.decide g rel (some a) (some b)).result = .ok r) : r = true ↔ g.Related c.variance rel a b := by
  cases rel with
  | subtype => exact subtype_iff truthful left right h
  | equal => exact equal_iff truthful left right h

namespace Graph

variable {g : Graph} {v : Variance} {depth : Int} {rel : Relation} {a b c : TypeId}

theorem verdict_iff {r : Bool} (left : g.WellFormed a) (right : g.WellFormed b)
    (h : g.verdict v depth rel a b = .ok r) : r = true ↔ g.Related v rel a b := by
  unfold verdict at h
  exact Checker.decide_iff (c := ⟨depth, v, Oracle.silent⟩) (Oracle.silent_truthful g v) left right h

/-- Short of an overflow, a checker tells the truth. -/
theorem verdict_eq (left : g.WellFormed a) (right : g.WellFormed b)
    (ends : g.verdict v depth rel a b ≠ .error .overflow) :
    ∃ r, g.verdict v depth rel a b = .ok r ∧ (r = true ↔ g.Related v rel a b) := by
  have whole (side : Relation) : g.verdict v depth rel a b ≠ .error (.missing side) := by
    unfold verdict
    exact Checker.decide_whole (c := ⟨depth, v, Oracle.silent⟩) rel left right side
  cases answer : g.verdict v depth rel a b with
  | ok r => exact ⟨r, rfl, verdict_iff left right answer⟩
  | error e =>
    cases e with
    | overflow => exact absurd answer ends
    | missing side => exact absurd answer (whole side)

theorem verdict_of_related (left : g.WellFormed a) (right : g.WellFormed b)
    (ends : g.verdict v depth rel a b ≠ .error .overflow) (h : g.Related v rel a b) :
    g.verdict v depth rel a b = .ok true := by
  obtain ⟨r, answer, iff⟩ := verdict_eq left right ends
  rw [answer, iff.2 h]

/-- Checkers that do not overflow agree on questions with the same truth. -/
theorem verdict_congr {depth' : Int} {a' b' : TypeId} (left : g.WellFormed a) (right : g.WellFormed b)
    (left' : g.WellFormed a') (right' : g.WellFormed b') (same : g.Related v rel a b ↔ g.Related v rel a' b')
    (ends : g.verdict v depth rel a b ≠ .error .overflow) (ends' : g.verdict v depth' rel a' b' ≠ .error .overflow) :
    g.verdict v depth rel a b = g.verdict v depth' rel a' b' := by
  obtain ⟨r, answer, iff⟩ := verdict_eq left right ends
  obtain ⟨r', answer', iff'⟩ := verdict_eq left' right' ends'
  have : r = r' := Bool.eq_iff_iff.2 (iff.trans (same.trans iff'.symm))
  rw [answer, answer', this]

/-- A type is compared with itself without a hypothesis. -/
theorem verdict_refl (v : Variance) (depth : Int) (rel : Relation) (a : TypeId) :
    g.verdict v depth rel a a = .ok true := by
  unfold verdict
  cases rel with
  | subtype =>
    unfold Checker.decide Checker.subtype Checker.subtypeWithin
    simp [Checker.subtypeAtOnce?, Trial.yes]
  | equal =>
    unfold Checker.decide Checker.equal Checker.equalWithin
    simp [Checker.equalAtOnce?, Trial.yes]

/-- Short of an overflow, and whatever the bounds of the checkers that are asked: equality is an
equivalence and holds exactly between copies of one infinite type, subtyping is a preorder above it, and
equal types are interchangeable in every question. -/
theorem verdicts_lawful (v : Variance) (first : g.WellFormed a) (second : g.WellFormed b) (third : g.WellFormed c) :
    -- reflexivity, also across copies of one infinite type
    (∀ rel d, g.verdict v d rel a a = .ok true) ∧
    (∀ d, g.verdict v d .equal a b ≠ .error .overflow →
      (g.verdict v d .equal a b = .ok true ↔ g.unfolding a = g.unfolding b)) ∧
    -- symmetry of equality
    (∀ d d', g.verdict v d .equal a b = .ok true → g.verdict v d' .equal b a ≠ .error .overflow →
      g.verdict v d' .equal b a = .ok true) ∧
    -- transitivity of both
    (∀ rel d d' d'', g.verdict v d rel a b = .ok true → g.verdict v d' rel b c = .ok true →
      g.verdict v d'' rel a c ≠ .error .overflow → g.verdict v d'' rel a c = .ok true) ∧
    -- equal types are subtypes of each other
    (∀ d d', g.verdict v d .equal a b = .ok true →
      (g.verdict v d' .subtype a b ≠ .error .overflow → g.verdict v d' .subtype a b = .ok true) ∧
      (g.verdict v d' .subtype b a ≠ .error .overflow → g.verdict v d' .subtype b a = .ok true)) ∧
    -- and interchangeable on either side
    (∀ rel d d' d'', g.verdict v d .equal a b = .ok true →
      (g.verdict v d' rel a c ≠ .error .overflow → g.verdict v d'' rel b c ≠ .error .overflow →
        g.verdict v d' rel a c = g.verdict v d'' rel b c) ∧
      (g.verdict v d' rel c a ≠ .error .overflow → g.verdict v d'' rel c b ≠ .error .overflow →
        g.verdict v d' rel c a = g.verdict v d'' rel c b)) := by
  have equal {d : Int} (yes : g.verdict v d .equal a b = .ok true) : g.Equal a b :=
    (verdict_iff first second yes).1 rfl
  refine ⟨fun rel d => verdict_refl v d rel a, fun d ends => ?_, fun d d' yes ends => ?_,
    fun rel d d' d'' yes yes' ends => ?_, fun d d' yes => ⟨fun ends => ?_, fun ends => ?_⟩,
    fun rel d d' d'' yes => ⟨fun ends ends' => ?_, fun ends ends' => ?_⟩⟩
  · rw [← equal_iff_unfolding first second]
    exact ⟨equal, verdict_of_related first second ends⟩
  · exact verdict_of_related second first ends (equal yes).symm
  · have before := (verdict_iff first second yes).1 rfl
    have after := (verdict_iff second third yes').1 rfl
    exact verdict_of_related first third ends (before.trans after)
  · exact verdict_of_related first second ends ((equal yes).subtype second)
  · exact verdict_of_related second first ends ((equal yes).symm.subtype first)
  · exact verdict_congr first third second third (Equal.related_congr (equal yes) (Equal.refl third)) ends ends'
  · exact verdict_congr third first third second (Equal.related_congr (Equal.refl third) (equal yes)) ends ends'

/-- A function that returns streams stands in for the method of a stream, and so for that of one that
was unrolled twice; the two kinds of streams are the same infinite type. -/
theorem verdicts_streams :
    Checker.streams.verdict .contravariant 50 .subtype 12 9 = .ok true ∧
      Checker.streams.unfolding 6 = Checker.streams.unfolding 8 := by
  have formed (t : TypeId) (member : t ∈ [6, 7, 8, 9, 10, 11, 12]) := Checker.streams_wellFormed t member
  obtain ⟨_, _, _, trans, _⟩ := verdicts_lawful .contravariant (formed 12 (by decide)) (formed 7 (by decide))
    (formed 9 (by decide))
  obtain ⟨_, copies, _⟩ := verdicts_lawful .covariant (formed 6 (by decide)) (formed 8 (by decide))
    (formed 6 (by decide))
  exact ⟨trans .subtype 50 50 50 rfl rfl (by decide), (copies 50 (by decide)).1 rfl⟩

end Graph

end Gradual
