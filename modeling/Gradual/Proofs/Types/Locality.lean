import Gradual.Proofs.Types.Decision

/-!
The rules of equality and subtyping look at a node and its parts, so what holds of two types depends on what they
lead to and on nothing else of the graph. In another graph that has the same nodes there, they are related alike.
-/
namespace Gradual

theorem related_within {R S : TypeId → TypeId → Prop} {a b : Child} (h : Option.Rel R a b)
    (le : ∀ x y, a = some x → b = some y → R x y → S x y) : Option.Rel S a b := by
  cases h with
  | some h => exact .some (le _ _ rfl rfl h)
  | none => exact .none

theorem forall₂_within {P Q : α → β → Prop} {xs : List α} {ys : List β} (h : List.Forall₂ P xs ys)
    (le : ∀ x ∈ xs, ∀ y ∈ ys, P x y → Q x y) : List.Forall₂ Q xs ys := by
  induction h with
  | nil => exact .nil
  | @cons x y xs ys here _ ih =>
    apply List.Forall₂.cons (le x (by simp) y (by simp) here)
    exact ih fun a ha b hb => le a (by simp [ha]) b (by simp [hb])

namespace Node

variable {R E S : TypeId → TypeId → Prop} {v : Variance} {m n : Node}

def Among (m n : Node) (R : TypeId → TypeId → Prop) (x y : TypeId) : Prop :=
  x ∈ m.children ++ n.children ∧ y ∈ m.children ++ n.children ∧ R x y

theorem related_among {a b : Child} (left : ∀ x, a = some x → x ∈ m.children ++ n.children)
    (right : ∀ y, b = some y → y ∈ m.children ++ n.children) (h : Option.Rel R a b) :
    Option.Rel (Among m n R) a b :=
  related_within h fun x y here there rel => ⟨left x here, right y there, rel⟩

/-- The rules of equality look at parts only. -/
theorem EqualBy.among (h : m.EqualBy R n) : m.EqualBy (Among m n R) n := by
  have across {a b : Child} (left : ∀ x, a = some x → x ∈ m.children) (right : ∀ y, b = some y → y ∈ n.children)
      (rel : Option.Rel R a b) : Option.Rel (Among m n R) a b :=
    related_among (fun x here => List.mem_append_left _ (left x here))
      (fun y there => List.mem_append_right _ (right y there)) rel
  unfold EqualBy at h ⊢
  split at h
  · exact h
  · obtain ⟨code, args, ret, proto⟩ := h
    refine ⟨code, forall₂_within args fun a ha b hb => across ?_ ?_, across ?_ ?_ ret, fun ctor => across ?_ ?_ (proto ctor)⟩
    · exact fun x => closure_children (.inr (.inl ha))
    · exact fun y => closure_children (.inr (.inl hb))
    · exact fun x => closure_children (.inl rfl)
    · exact fun y => closure_children (.inl rfl)
    · exact fun x => closure_children (.inr (.inr rfl))
    · exact fun y => closure_children (.inr (.inr rfl))
  · refine ⟨h.1, fun p hp q hq same => ?_⟩
    obtain ⟨flag, type⟩ := h.2 p hp q hq same
    exact ⟨flag, across (fun x => object_children hp) (fun y => object_children hq) type⟩
  · exact across (by simp [children]) (by simp [children]) h
  · exact across (by simp [children]) (by simp [children]) h
  · exact h

/-- So do the rules of subtyping, also where arguments are compared the other way round. -/
theorem SubtypeBy.among (h : m.SubtypeBy v E S n) : m.SubtypeBy v (Among m n E) (Among m n S) n := by
  have inLeft {a : Child} (left : ∀ x, a = some x → x ∈ m.children) x (here : a = some x) :
      x ∈ m.children ++ n.children := List.mem_append_left _ (left x here)
  have inRight {b : Child} (right : ∀ y, b = some y → y ∈ n.children) y (there : b = some y) :
      y ∈ m.children ++ n.children := List.mem_append_right _ (right y there)
  unfold SubtypeBy at h ⊢
  split at h
  · exact h
  · next s t =>
    obtain ⟨wanted, answers, ret, args, proto⟩ := h
    have inside (b : Child) (hb : b ∈ wanted) : b ∈ t.args := by
      rcases answers with ⟨_, rfl⟩ | ⟨_, _, recv, split⟩
      · exact hb
      · simp [split, hb]
    refine ⟨wanted, answers, ?_, forall₂_within args fun a ha b hb rel => ?_, fun ctor => ?_⟩
    · exact related_among (inLeft fun x => closure_children (.inl rfl)) (inRight fun y => closure_children (.inl rfl)) ret
    · have left := inLeft fun x => closure_children (.inr (.inl ha))
      have right := inRight fun y => closure_children (.inr (.inl (inside b hb)))
      cases v with
      | covariant => exact related_among left right rel
      | contravariant => exact related_among right left rel
    · exact related_among (inLeft fun x => closure_children (.inr (.inr rfl)))
        (inRight fun y => closure_children (.inr (.inr rfl))) (proto ctor)
  · intro q hq
    obtain ⟨p, hp, same, type⟩ := h q hq
    exact ⟨p, hp, same, related_among (inLeft fun x => object_children hp) (inRight fun y => object_children hq) type⟩
  · exact related_among (inLeft (by simp [children])) (inRight (by simp [children])) h
  · exact related_among (inLeft (by simp [children])) (inRight (by simp [children])) h
  · exact h

end Node

namespace Graph

variable {g g' : Graph} {v : Variance} {a b : TypeId} {Known : TypeId → Prop}

/-- Two graphs have the same nodes at the known types, and these lead to known types only. -/
structure Agree (g g' : Graph) (Known : TypeId → Prop) : Prop where
  nodes : ∀ t, Known t → g'.node t = g.node t
  parts : ∀ t, Known t → ∀ u ∈ g.children t, Known u

theorem Agree.among (agree : g.Agree g' Known) (left : Known a) (right : Known b) {x : TypeId}
    (part : x ∈ (g.node a).children ++ (g.node b).children) : Known x := by
  rcases List.mem_append.1 part with part | part
  · exact agree.parts a left x part
  · exact agree.parts b right x part

theorem Agree.equal (agree : g.Agree g' Known) (left : Known a) (right : Known b) (equal : g.Equal a b) :
    g'.Equal a b := by
  refine Equal.coinduct (fun x y => Known x ∧ Known y ∧ g.Equal x y) ?_ ⟨left, right, equal⟩
  rintro x y ⟨left, right, equal⟩
  rw [agree.nodes x left, agree.nodes y right]
  apply equal.parts.among.mono
  rintro c d ⟨hc, hd, equal⟩
  exact ⟨agree.among left right hc, agree.among left right hd, equal⟩

theorem Agree.subtype (agree : g.Agree g' Known) (left : Known a) (right : Known b) (subtype : g.Subtype v a b) :
    g'.Subtype v a b := by
  refine Subtype.coinduct (fun x y => Known x ∧ Known y ∧ g.Subtype v x y) ?_ ⟨left, right, subtype⟩
  rintro x y ⟨left, right, subtype⟩
  rw [agree.nodes x left, agree.nodes y right]
  apply subtype.parts.among.mono
  · rintro c d ⟨hc, hd, equal⟩
    exact agree.equal (agree.among left right hc) (agree.among left right hd) equal
  · rintro c d ⟨hc, hd, subtype⟩
    exact ⟨agree.among left right hc, agree.among left right hd, subtype⟩

end Graph

end Gradual
