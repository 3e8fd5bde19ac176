import Mathlib.Data.Finset.Prod
import Gradual.Proofs.Types.Completeness
import Gradual.Proofs.Types.Depth
import Gradual.Proofs.Types.Printing

/-!
A check asks whether two types are related, and to find out asks about their parts under one more hypothesis. Nothing
is assumed twice, so questions nest no deeper than there are hypotheses about the types in reach: two for each pair.
Under a bound of that many hypotheses a check always comes to an answer, and no larger bound changes it. Main statement:
`Checker.decide_bounded`.
-/
namespace Gradual

/-- Whether the two types of `goal` are related, asked while the hypotheses `seen` are held. -/
structure Question where
  seen : List Hypothesis
  goal : Hypothesis

namespace Hypothesis

/-- One type of `p` is part of one type of `h`, and the other of the other. -/
def Part (g : Graph) (h p : Hypothesis) : Prop :=
  (p.left ∈ g.children h.left ∧ p.right ∈ g.children h.right) ∨
    (p.left ∈ g.children h.right ∧ p.right ∈ g.children h.left)

def Inside (S : Finset TypeId) (h : Hypothesis) : Prop := h.left ∈ S ∧ h.right ∈ S

/-- There are two relations between each two types. -/
theorem length_le {seen : List Hypothesis} {S : Finset TypeId} (once : seen.Nodup)
    (inside : ∀ h ∈ seen, h.Inside S) : seen.length ≤ 2 * S.card * S.card := by
  let relations : Finset Relation := {.subtype, .equal}
  let sides (h : Hypothesis) := (h.rel, h.left, h.right)
  have maps : ∀ h ∈ seen.toFinset, sides h ∈ relations ×ˢ S ×ˢ S := by
    intro h member
    obtain ⟨left, right⟩ := inside h (List.mem_toFinset.1 member)
    have known : h.rel ∈ relations := by cases h.rel <;> decide
    simp only [sides, Finset.mem_product]
    exact ⟨known, left, right⟩
  have injective : Set.InjOn sides seen.toFinset := by
    rintro ⟨rel, a, b⟩ - ⟨rel', a', b'⟩ - same
    simp only [sides, Prod.mk.injEq] at same
    obtain ⟨rfl, rfl, rfl⟩ := same
    rfl
  calc seen.length = seen.toFinset.card := (List.toFinset_card_of_nodup once).symm
    _ ≤ (relations ×ˢ S ×ˢ S).card := Finset.card_le_card_of_injOn sides maps injective
    _ = 2 * S.card * S.card := by simp [relations, mul_assoc]

end Hypothesis

namespace Checker

variable {c : Checker} {g : Graph} {a b : TypeId} {S : Finset TypeId} {seen : List Hypothesis} {goal : Hypothesis}
  {p q : Question}

def atOnce? (c : Checker) (g : Graph) (seen : List Hypothesis) (goal : Hypothesis) : Option Trial :=
  match goal.rel with
  | .subtype => c.subtypeAtOnce? g seen goal.left goal.right
  | .equal => c.equalAtOnce? g seen goal.left goal.right

def within (c : Checker) (g : Graph) (budget : Nat) (seen : List Hypothesis) (goal : Hypothesis) : Trial :=
  match goal.rel with
  | .subtype => c.subtypeWithin g budget seen (some goal.left) (some goal.right)
  | .equal => c.equalWithin g budget seen (some goal.left) (some goal.right)

theorem decide_eq_within (rel : Relation) (a b : TypeId) :
    c.decide g rel (some a) (some b) = c.within g c.maxDepth.toNat [] ⟨rel, a, b⟩ := by
  cases rel <;> rfl

/-- A question leads to questions about parts, unless it is answered at once. The number of hypotheses is not
bounded. -/
inductive Asks (c : Checker) (g : Graph) : Question → Question → Prop where
  | part {seen : List Hypothesis} {goal next : Hypothesis} (unknown : c.atOnce? g seen goal = none)
      (part : goal.Part g next) : Asks c g ⟨seen, goal⟩ ⟨goal :: seen, next⟩

theorem within_known {answer : Trial} (known : c.atOnce? g seen goal = some answer) (budget : Nat) :
    c.within g budget seen goal = answer := by
  obtain ⟨rel, a, b⟩ := goal
  cases rel with
  | subtype =>
    simp only [atOnce?] at known
    simp only [within]
    unfold subtypeWithin
    rw [known]
  | equal =>
    simp only [atOnce?] at known
    simp only [within]
    unfold equalWithin
    rw [known]

/-- What holds of the checks that a question leads to, and of all that can be joined from them, holds of its own
check. -/
theorem within_succ {P : Trial → Prop} (joins : Trial.Congruence fun t _ => P t)
    (left : (g.node goal.left).WellFormed) (right : (g.node goal.right).WellFormed)
    (unknown : c.atOnce? g seen goal = none) {budget : Nat}
    (parts : ∀ next, c.Asks g ⟨seen, goal⟩ ⟨goal :: seen, next⟩ → P (c.within g budget (goal :: seen) next)) :
    P (c.within g (budget + 1) seen goal) := by
  have straight (rel : Relation) {x y : TypeId} (hx : x ∈ g.children goal.left) (hy : y ∈ g.children goal.right) :=
    parts ⟨rel, x, y⟩ (.part unknown (.inl ⟨hx, hy⟩))
  have crossed (rel : Relation) {x y : TypeId} (hx : x ∈ g.children goal.left) (hy : y ∈ g.children goal.right) :=
    parts ⟨rel, y, x⟩ (.part unknown (.inr ⟨hy, hx⟩))
  obtain ⟨rel, a, b⟩ := goal
  cases rel with
  | equal =>
    simp only [atOnce?] at unknown
    simp only [within]
    unfold equalWithin
    rw [unknown]
    let equal := c.equalWithin g budget (⟨.equal, a, b⟩ :: seen)
    apply Node.equalParts_congr equal equal joins left.parts right.parts
    rintro _ _ ⟨x, hx, rfl⟩ ⟨y, hy, rfl⟩
    exact straight .equal hx hy
  | subtype =>
    simp only [atOnce?] at unknown
    simp only [within]
    unfold subtypeWithin
    rw [unknown]
    let equal := c.equalWithin g budget (⟨.subtype, a, b⟩ :: seen)
    let subtype := c.subtypeWithin g budget (⟨.subtype, a, b⟩ :: seen)
    apply Node.subtypeParts_congr equal equal subtype subtype joins left.parts right.parts
    · rintro _ _ ⟨x, hx, rfl⟩ ⟨y, hy, rfl⟩
      exact straight .equal hx hy
    · rintro _ _ ⟨x, hx, rfl⟩ ⟨y, hy, rfl⟩
      exact ⟨straight .subtype hx hy, crossed .subtype hx hy⟩

/-- What is assumed is known, so it is not assumed again. -/
theorem not_mem_of_atOnce? (unknown : c.atOnce? g seen goal = none) : goal ∉ seen := by
  intro member
  obtain ⟨rel, a, b⟩ := goal
  cases rel with
  | subtype => simp [atOnce?, subtypeAtOnce?, member] at unknown
  | equal => simp [atOnce?, equalAtOnce?, member] at unknown

theorem atOnce?_ne_overflow {answer : Trial} (known : c.atOnce? g seen goal = some answer) :
    answer.result ≠ .error .overflow := by
  have said {say : Bool → Trial} (ok : ∀ r, (say r).result = .ok r) {o : Option Bool}
      (known : o.map say = some answer) : answer.result ≠ .error .overflow := by
    obtain ⟨r, _, rfl⟩ := Option.map_eq_some_iff.1 known
    simp [ok]
  obtain ⟨rel, a, b⟩ := goal
  cases rel with
  | subtype =>
    simp only [atOnce?, subtypeAtOnce?] at known
    split at known
    · cases known
      simp [Trial.yes]
    split at known
    · cases known
      simp [Trial.told]
    · exact said (fun _ => rfl) known
  | equal =>
    simp only [atOnce?, equalAtOnce?] at known
    split at known
    · cases known
      simp [Trial.yes]
    split at known
    · cases known
      simp [Trial.no]
    split at known
    · cases known
      simp [Trial.yes]
    · exact said (fun _ => rfl) known

def Closed (g : Graph) (S : Finset TypeId) : Prop := ∀ t ∈ S, (g.node t).WellFormed ∧ ∀ u ∈ g.children t, u ∈ S

/-- The hypotheses held while a question about types of `S` is asked: none of them twice. -/
structure Held (S : Finset TypeId) (q : Question) : Prop where
  once : q.seen.Nodup
  seen : ∀ h ∈ q.seen, h.Inside S
  goal : q.goal.Inside S

theorem Held.length_lt (held : Held S ⟨seen, goal⟩) (unknown : c.atOnce? g seen goal = none) :
    seen.length < 2 * S.card * S.card := by
  have once : (goal :: seen).Nodup := List.nodup_cons.2 ⟨not_mem_of_atOnce? unknown, held.once⟩
  exact Hypothesis.length_le once (List.forall_mem_cons.2 ⟨held.goal, held.seen⟩)

/-- The step: the goal becomes a hypothesis, and the next goal is about parts. -/
theorem Held.asks (closed : Closed g S) (held : Held S q) (asks : c.Asks g q p) : Held S p := by
  obtain @⟨seen, goal, next, unknown, part⟩ := asks
  have left := (closed _ held.goal.1).2
  have right := (closed _ held.goal.2).2
  refine ⟨List.nodup_cons.2 ⟨not_mem_of_atOnce? unknown, held.once⟩,
    List.forall_mem_cons.2 ⟨held.goal, held.seen⟩, ?_⟩
  rcases part with ⟨hx, hy⟩ | ⟨hx, hy⟩
  · exact ⟨left _ hx, right _ hy⟩
  · exact ⟨right _ hx, left _ hy⟩

/-- Questions do not nest without end: the induction is on the hypotheses that are left to be made. -/
theorem Held.acc (closed : Closed g S) {left : Nat} (held : Held S q)
    (enough : 2 * S.card * S.card ≤ q.seen.length + left) : Acc (fun p q => c.Asks g q p) q := by
  induction left generalizing q with
  | zero =>
    refine ⟨q, fun p asks => ?_⟩
    obtain ⟨unknown, _⟩ := asks
    exact absurd (held.length_lt unknown) (Nat.not_lt.2 enough)
  | succ left ih =>
    refine ⟨q, fun p asks => ih (held.asks closed asks) ?_⟩
    obtain ⟨_, _⟩ := asks
    simp only [List.length_cons] at enough ⊢
    omega

theorem finishes_congruence : Trial.Congruence fun t _ => t.result ≠ .error .overflow where
  known _ := nofun
  and first rest := by
    unfold Trial.and
    split
    · exact rest
    · exact first

/-- The bound is not reached where the budget is enough for the hypotheses that are left to be made. -/
theorem Held.within_ne_overflow (closed : Closed g S) {budget : Nat} {seen : List Hypothesis} {goal : Hypothesis}
    (held : Held S ⟨seen, goal⟩) (enough : 2 * S.card * S.card ≤ seen.length + budget) :
    (c.within g budget seen goal).result ≠ .error .overflow := by
  cases known : c.atOnce? g seen goal with
  | some answer =>
    rw [within_known known]
    exact atOnce?_ne_overflow known
  | none =>
    have fewer := held.length_lt known
    cases budget with
    | zero => omega
    | succ budget =>
      apply within_succ finishes_congruence (closed _ held.goal.1).1 (closed _ held.goal.2).1 known
      intro next asks
      apply Held.within_ne_overflow closed (held.asks closed asks)
      simp only [List.length_cons]
      omega
termination_by budget

/-- The types that can be reached from two well-formed ones. -/
theorem closed_reachable (left : g.WellFormed a) (right : g.WellFormed b) : Closed g (g.reachable [a, b]).toFinset := by
  intro t member
  simp only [List.mem_toFinset, Graph.mem_reachable_iff, List.mem_cons, List.not_mem_nil, or_false,
    exists_eq_or_imp, exists_eq_left] at member ⊢
  rcases member with path | path
  · exact ⟨left t path, fun u edge => .inl (path.tail edge)⟩
  · exact ⟨right t path, fun u edge => .inr (path.tail edge)⟩

theorem held_reachable (rel : Relation) (a b : TypeId) : Held (g.reachable [a, b]).toFinset ⟨[], rel, a, b⟩ := by
  refine ⟨List.nodup_nil, by simp, ?_⟩
  simp only [Hypothesis.Inside, List.mem_toFinset, Graph.mem_reachable_iff]
  exact ⟨⟨a, by simp, .refl⟩, ⟨b, by simp, .refl⟩⟩

/-- The bound on hypotheses is a bound on resources. A question about well-formed types does not lead to questions
without end, and its check comes to an answer or runs into the bound. An answer stays the same under a larger bound, and
where `n` types are in reach a bound of `2 * n * n` is never run into. -/
theorem decide_bounded (c : Checker) (left : g.WellFormed a) (right : g.WellFormed b) (rel : Relation) :
    let n := (g.reachable [a, b]).toFinset.card
    let result (depth : Int) := ({ c with maxDepth := depth }.decide g rel (some a) (some b)).result
    Acc (fun p q => c.Asks g q p) ⟨[], rel, a, b⟩ ∧
      (∀ depth, (∃ answer, result depth = .ok answer) ∨ result depth = .error .overflow) ∧
      (∀ depth deeper answer, depth ≤ deeper → result depth = .ok answer → result deeper = .ok answer) ∧
      ∀ depth : Int, 2 * n * n ≤ depth → result depth ≠ .error .overflow := by
  intro n result
  have closed := closed_reachable left right
  refine ⟨(held_reachable rel a b).acc closed (Nat.le_add_left _ _), fun depth => ?_, ?_, ?_⟩
  · have whole : Trial.Whole ({ c with maxDepth := depth }.decide g rel (some a) (some b)) :=
      decide_whole rel left right
    cases ended : result depth with
    | ok answer => exact .inl ⟨answer, rfl⟩
    | error e =>
      cases e with
      | overflow => exact .inr rfl
      | missing rel => exact absurd ended (whole rel)
  · intro depth deeper answer le ended
    let less : Checker := { c with maxDepth := depth }
    let more : Checker := { c with maxDepth := deeper }
    have oracle : more.oracle = less.oracle := rfl
    have variance : more.variance = less.variance := rfl
    have finished : (less.decide g rel (some a) (some b)).result ≠ .error .overflow := by
      rw [show (less.decide g rel (some a) (some b)).result = _ from ended]
      nofun
    have same := decide_deepen oracle variance le rel (some a) (some b) finished
    exact (congrArg Trial.result same).trans ended
  · intro depth enough
    simp only [result, decide_eq_within]
    apply (held_reachable rel a b).within_ne_overflow closed
    simp only [List.length_nil, Nat.zero_add]
    exact_mod_cast enough.trans (Int.self_le_toNat depth)

/-- Six types can be reached from a stream and from one that was unrolled twice. -/
theorem decide_bounded_streams :
    (streams.reachable [6, 8]).toFinset.card = 6 ∧
      (∀ depth, 72 ≤ depth →
        ((⟨depth, .contravariant, Oracle.silent⟩ : Checker).decide streams .subtype (some 6) (some 8)).result ≠
          .error .overflow) ∧
      ∀ deeper, 50 ≤ deeper →
        ((⟨deeper, .contravariant, Oracle.silent⟩ : Checker).decide streams .equal (some 6) (some 8)).result =
          .ok true := by
  have bounded := decide_bounded ⟨50, .contravariant, Oracle.silent⟩ (streams_wellFormed 6 (by decide))
    (streams_wellFormed 8 (by decide))
  obtain ⟨_, _, _, enough⟩ := bounded .subtype
  obtain ⟨_, _, deepen, _⟩ := bounded .equal
  have six : (streams.reachable [6, 8]).toFinset.card = 6 := by decide
  refine ⟨six, fun depth le => enough depth ?_, fun deeper le => deepen 50 deeper true le rfl⟩
  rw [six]
  omega

end Checker

end Gradual
