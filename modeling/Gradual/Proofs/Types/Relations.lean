import Gradual.Types.Checker
import Mathlib.Data.List.Forall2
import Mathlib.Data.List.Nodup
import Mathlib.Logic.Relation
import Mathlib.Order.FixedPoints

/-!
Equality and subtyping of types as greatest fixed points. A rule says when two nodes are related, given
which of their parts are; the relation on a cyclic graph is the largest one that obeys its rules, so two
types are related unless finitely many steps lead from them to a pair that no rule allows.

The rules speak of shapes only and know nothing of hypotheses, depth or order of comparison. Equality is
an equivalence, and a type below another is below every type equal to that one.
-/
namespace Gradual

/-- A closure type has all its parts: methods and constructors a receiver, constructors a prototype. -/
structure Signature.WellFormed (s : Signature) : Prop where
  code : s.code = .function ∨ s.code = .method ∨ s.code = .constructor
  args : ∀ a ∈ s.args, a.isSome
  ret : s.ret.isSome
  proto : s.code = .constructor → s.proto.isSome
  receiver : s.code ≠ .function → s.args ≠ []

/-- With a receiver in its place the explicit arguments are those that are counted. -/
theorem Signature.WellFormed.length_explicit {sig : Signature} (formed : sig.WellFormed) :
    (sig.explicit.length : Int) = sig.explicitCount := by
  unfold Signature.explicit Signature.explicitCount
  split
  next => rfl
  next notFunction =>
    have := List.length_pos_of_ne_nil (formed.receiver (by simpa [Signature.isFunction] using notFunction))
    simp only [List.length_drop]
    omega

def Node.WellFormed : Node → Prop
  | .odd _ => False
  | .prim _ => True
  | .closure s => s.WellFormed
  | .object ps => (ps.map (·.id)).Nodup ∧ ∀ p ∈ ps, p.type.isSome
  | .array e | .map e => e.isSome

/-- Only object types have properties. -/
theorem Node.object_of_mem_props {n : Node} {p : Property} (member : p ∈ n.props) : ∃ ps, n = .object ps := by
  cases n with
  | object ps => exact ⟨ps, rfl⟩
  | _ => cases member

instance (s : Signature) : Decidable s.WellFormed :=
  decidable_of_iff
    ((s.code = .function ∨ s.code = .method ∨ s.code = .constructor) ∧ (∀ a ∈ s.args, a.isSome) ∧
      s.ret.isSome ∧ (s.code = .constructor → s.proto.isSome) ∧ (s.code ≠ .function → s.args ≠ []))
    ⟨fun ⟨code, args, ret, proto, receiver⟩ => ⟨code, args, ret, proto, receiver⟩,
      fun h => ⟨h.code, h.args, h.ret, h.proto, h.receiver⟩⟩

instance : (n : Node) → Decidable n.WellFormed
  | .odd _ => inferInstanceAs (Decidable False)
  | .prim _ => inferInstanceAs (Decidable True)
  | .closure s => inferInstanceAs (Decidable s.WellFormed)
  | .object ps => inferInstanceAs (Decidable ((ps.map (·.id)).Nodup ∧ ∀ p ∈ ps, p.type.isSome))
  | .array e | .map e => inferInstanceAs (Decidable (e.isSome = true))

namespace Graph

def Reaches (g : Graph) : TypeId → TypeId → Prop :=
  Relation.ReflTransGen fun t u => u ∈ g.children t

def WellFormed (g : Graph) (t : TypeId) : Prop := ∀ u, g.Reaches t u → (g.node u).WellFormed

theorem WellFormed.node {g : Graph} (h : g.WellFormed t) : (g.node t).WellFormed :=
  h t .refl

theorem WellFormed.child {g : Graph} (h : g.WellFormed t) (edge : u ∈ g.children t) :
    g.WellFormed u :=
  fun v path => h v (.head edge path)

/-- Types that refer to nothing but each other are well formed if their nodes are. -/
theorem WellFormed.of_closed {g : Graph} (ts : List TypeId)
    (closed : ∀ t ∈ ts, (g.node t).WellFormed ∧ ∀ u ∈ g.children t, u ∈ ts) (h : t ∈ ts) :
    g.WellFormed t := by
  intro u path
  have inside : u ∈ ts := by
    induction path with
    | refl => exact h
    | tail _ edge ih => exact (closed _ ih).2 _ edge
  exact (closed u inside).1

theorem lt_size_of_wellFormed {g : Graph} (formed : (g.node t).WellFormed) : t < g.size := by
  by_contra outside
  have empty : g.node t = .odd 0 := by
    rw [size] at outside
    simp [node, Array.getD, outside]
  rw [empty] at formed
  exact formed

end Graph

/-- A relation read in the direction in which arguments are compared. -/
def Variance.orient (v : Variance) (R : α → α → Prop) (x y : α) : Prop :=
  match v with
  | .covariant => R x y
  | .contravariant => R y x

theorem Variance.orient_mono (v : Variance) {R S : α → α → Prop} (le : ∀ x y, R x y → S x y) {x y : α}
    (h : v.orient R x y) : v.orient S x y := by
  cases v <;> exact le _ _ h

/-- Equality of nodes by equality of their parts. Objects agree as sets of properties. -/
def Node.EqualBy (R : TypeId → TypeId → Prop) : Node → Node → Prop
  | .prim p, .prim q => p = q
  | .closure x, .closure y =>
    x.code = y.code ∧ List.Forall₂ (Option.Rel R) x.args y.args ∧ Option.Rel R x.ret y.ret ∧
      (x.code = .constructor → Option.Rel R x.proto y.proto)
  | .object ps, .object qs =>
    (∀ id, id ∈ ps.map (·.id) ↔ id ∈ qs.map (·.id)) ∧
      ∀ p ∈ ps, ∀ q ∈ qs, p.id = q.id → p.readOnly = q.readOnly ∧ Option.Rel R p.type q.type
  | .array a, .array b | .map a, .map b => Option.Rel R a b
  | _, _ => False

/-- The arguments of the larger closure type that those of the smaller one answer to. A function stands
in for a method by leaving out the receiver. -/
def Signature.Answers (sub sup : Signature) (wanted : List Child) : Prop :=
  (sub.code = sup.code ∧ wanted = sup.args) ∨
    (sub.code = .function ∧ sup.code = .method ∧ ∃ recv, sup.args = recv :: wanted)

/-- Subtyping of nodes by both relations on their parts. An object may have more properties than asked
for but none of another type; elements are invariant. -/
def Node.SubtypeBy (v : Variance) (E S : TypeId → TypeId → Prop) : Node → Node → Prop
  | .prim p, .prim q => p = q ∨ (p = .int ∧ q = .float)
  | .closure s, .closure t =>
    ∃ wanted, s.Answers t wanted ∧ Option.Rel S s.ret t.ret ∧
      List.Forall₂ (v.orient (Option.Rel S)) s.args wanted ∧
      (s.code = .constructor → Option.Rel E s.proto t.proto)
  | .object ps, .object qs => ∀ q ∈ qs, ∃ p ∈ ps, p.id = q.id ∧ Option.Rel E p.type q.type
  | .array a, .array b | .map a, .map b => Option.Rel E a b
  | _, _ => False

theorem related_mono {R S : TypeId → TypeId → Prop} (le : ∀ x y, R x y → S x y) {a b : Child}
    (h : Option.Rel R a b) : Option.Rel S a b := by
  cases h with
  | some h => exact .some (le _ _ h)
  | none => exact .none

theorem related_symm {R S : TypeId → TypeId → Prop} (flip : ∀ x y, R x y → S y x) {a b : Child}
    (h : Option.Rel R a b) : Option.Rel S b a := by
  cases h with
  | some h => exact .some (flip _ _ h)
  | none => exact .none

theorem related_trans {R S T : TypeId → TypeId → Prop} (join : ∀ x y z, R x y → S y z → T x z)
    {a b c : Child} (h : Option.Rel R a b) (k : Option.Rel S b c) : Option.Rel T a c := by
  cases h with
  | some h => cases k with | some k => exact .some (join _ _ _ h k)
  | none => cases k; exact .none

theorem forall₂_trans {R : α → β → Prop} {S : β → γ → Prop} {T : α → γ → Prop}
    (join : ∀ x y z, R x y → S y z → T x z) {xs : List α} {ys : List β} {zs : List γ}
    (h : List.Forall₂ R xs ys) (k : List.Forall₂ S ys zs) : List.Forall₂ T xs zs := by
  induction h generalizing zs with
  | nil => cases k; exact .nil
  | cons h _ ih => cases k with | cons k ks => exact .cons (join _ _ _ h k) (ih ks)

namespace Node

theorem EqualBy.mono {R S : TypeId → TypeId → Prop} (le : ∀ x y, R x y → S x y) {m n : Node}
    (h : m.EqualBy R n) : m.EqualBy S n := by
  unfold EqualBy at h ⊢
  split at h
  · exact h
  · obtain ⟨code, args, ret, proto⟩ := h
    exact ⟨code, args.imp fun _ _ => related_mono le, related_mono le ret,
      fun ctor => related_mono le (proto ctor)⟩
  · exact ⟨h.1, fun p hp q hq same => ⟨(h.2 p hp q hq same).1, related_mono le (h.2 p hp q hq same).2⟩⟩
  · exact related_mono le h
  · exact related_mono le h
  · exact h

theorem EqualBy.symm {R S : TypeId → TypeId → Prop} (flip : ∀ x y, R x y → S y x) {m n : Node}
    (h : m.EqualBy R n) : n.EqualBy S m := by
  unfold EqualBy at h
  split at h
  · exact h.symm
  · obtain ⟨code, args, ret, proto⟩ := h
    exact ⟨code.symm, List.Forall₂.flip (args.imp fun _ _ => related_symm flip),
      related_symm flip ret, fun ctor => related_symm flip (proto (code.trans ctor))⟩
  · refine ⟨fun id => (h.1 id).symm, fun q hq p hp same => ?_⟩
    obtain ⟨flag, type⟩ := h.2 p hp q hq same.symm
    exact ⟨flag.symm, related_symm flip type⟩
  · exact related_symm flip h
  · exact related_symm flip h
  · exact h.elim

theorem EqualBy.trans {R S T : TypeId → TypeId → Prop} (join : ∀ x y z, R x y → S y z → T x z)
    {l m n : Node} (h : l.EqualBy R m) (k : m.EqualBy S n) : l.EqualBy T n := by
  unfold EqualBy at h
  split at h
  · subst h
    cases n with
    | prim => exact k
    | _ => exact k.elim
  · cases n with
    | closure z =>
      obtain ⟨code, args, ret, proto⟩ := h
      obtain ⟨code', args', ret', proto'⟩ := k
      exact ⟨code.trans code', forall₂_trans (fun a b c => @related_trans _ _ _ join a b c) args args',
        related_trans join ret ret',
        fun ctor => related_trans join (proto ctor) (proto' (code ▸ ctor))⟩
    | _ => exact k.elim
  · cases n with
    | object rs =>
      refine ⟨fun id => (h.1 id).trans (k.1 id), fun p hp r hr same => ?_⟩
      obtain ⟨q, hq, mid⟩ := List.mem_map.1 ((h.1 p.id).1 (List.mem_map_of_mem hp))
      obtain ⟨flag, type⟩ := h.2 p hp q hq mid.symm
      obtain ⟨flag', type'⟩ := k.2 q hq r hr (mid.trans same)
      exact ⟨flag.trans flag', related_trans join type type'⟩
    | _ => exact k.elim
  · cases n with
    | array c => exact related_trans join h k
    | _ => exact k.elim
  · cases n with
    | map c => exact related_trans join h k
    | _ => exact k.elim
  · exact h.elim

theorem EqualBy.refl {R : TypeId → TypeId → Prop} {n : Node} (formed : n.WellFormed)
    (parts : ∀ t ∈ n.children, R t t) : n.EqualBy R n := by
  have part : ∀ c : Child, (∀ t, c = some t → t ∈ n.children) → Option.Rel R c c := by
    intro c inside
    cases c with
    | none => exact .none
    | some t => exact .some (parts t (inside t rfl))
  cases n with
  | odd => exact formed.elim
  | prim => rfl
  | closure s =>
    refine ⟨rfl, List.forall₂_same.2 fun a ha => part a ?_, part _ ?_, fun _ => part _ ?_⟩ <;>
      intro t here <;> simp_all [children]
  | object ps =>
    refine ⟨fun _ => Iff.rfl, fun p hp q hq same => ?_⟩
    have : p = q := List.inj_on_of_nodup_map formed.1 hp hq same
    subst this
    refine ⟨rfl, part _ fun t ht => ?_⟩
    exact List.mem_filterMap.2 ⟨p, hp, ht⟩
  | array e | map e => exact part e (by rintro t rfl; simp [children])

theorem SubtypeBy.mono {v : Variance} {E F S T : TypeId → TypeId → Prop} (equal : ∀ x y, E x y → F x y)
    (le : ∀ x y, S x y → T x y) {m n : Node} (h : m.SubtypeBy v E S n) : m.SubtypeBy v F T n := by
  unfold SubtypeBy at h ⊢
  split at h
  · exact h
  · obtain ⟨wanted, answers, ret, args, proto⟩ := h
    exact ⟨wanted, answers, related_mono le ret,
      args.imp fun _ _ => v.orient_mono fun _ _ => related_mono le,
      fun ctor => related_mono equal (proto ctor)⟩
  · intro q hq
    obtain ⟨p, hp, same, type⟩ := h q hq
    exact ⟨p, hp, same, related_mono equal type⟩
  · exact related_mono equal h
  · exact related_mono equal h
  · exact h

theorem SubtypeBy.refl {v : Variance} {E S : TypeId → TypeId → Prop} {n : Node}
    (formed : n.WellFormed) (equal : ∀ t ∈ n.children, E t t) (parts : ∀ t ∈ n.children, S t t) :
    n.SubtypeBy v E S n := by
  have bothWays {R : TypeId → TypeId → Prop} {c : Child} (h : Option.Rel R c c) :
      v.orient (Option.Rel R) c c := by
    cases v <;> exact h
  have same := EqualBy.refl formed equal
  cases n with
  | odd => exact formed.elim
  | prim => exact .inl rfl
  | closure s =>
    obtain ⟨_, args, ret, _⟩ := EqualBy.refl formed parts
    exact ⟨s.args, .inl ⟨rfl, rfl⟩, ret,
      List.forall₂_same.2 fun a ha => bothWays (List.forall₂_same.1 args a ha), same.2.2.2⟩
  | object ps => exact fun q hq => ⟨q, hq, rfl, (same.2 q hq q hq rfl).2⟩
  | array e | map e => exact same

def Between (E S : TypeId → TypeId → Prop) (x y : TypeId) : Prop :=
  ∃ x' y', E x x' ∧ S x' y' ∧ E y' y

theorem related_between {E S : TypeId → TypeId → Prop} {a b c d : Child} (h : Option.Rel E a b)
    (s : Option.Rel S b c) (k : Option.Rel E c d) : Option.Rel (Between E S) a d := by
  cases h with
  | some h =>
    cases s with
    | some s => cases k with | some k => exact .some ⟨_, _, h, s, k⟩
  | none => cases s; cases k; exact .none

theorem orient_between {E S : TypeId → TypeId → Prop} (symm : ∀ x y, E x y → E y x) (v : Variance)
    {a b c d : Child} (h : Option.Rel E a b) (s : v.orient (Option.Rel S) b c) (k : Option.Rel E c d) :
    v.orient (Option.Rel (Between E S)) a d := by
  cases v with
  | covariant => exact related_between h s k
  | contravariant => exact related_between (related_symm symm k) s (related_symm symm h)

/-- A rule of subtyping applies to equal nodes as well, with the parts sandwiched between equal ones. -/
theorem SubtypeBy.between {v : Variance} {E S : TypeId → TypeId → Prop}
    (symm : ∀ x y, E x y → E y x) (trans : ∀ x y z, E x y → E y z → E x z) {k l m n : Node}
    (left : k.EqualBy E l) (h : l.SubtypeBy v E S m) (right : m.EqualBy E n) :
    k.SubtypeBy v E (Between E S) n := by
  unfold SubtypeBy at h
  split at h
  · cases k <;> cases n <;> simp_all [EqualBy, SubtypeBy]
  · cases k with
    | closure x =>
      cases n with
      | closure y =>
        obtain ⟨wanted, answers, ret, args, proto⟩ := h
        obtain ⟨code, args', ret', proto'⟩ := left
        obtain ⟨code'', args'', ret'', proto''⟩ := right
        have compared {ws : List Child} (rest : List.Forall₂ (Option.Rel E) wanted ws) :
            List.Forall₂ (v.orient (Option.Rel (Between E S))) x.args ws := by
          have tail := forall₂_trans (T := Relation.Comp (v.orient (Option.Rel S)) (Option.Rel E))
            (fun _ b _ i j => ⟨b, i, j⟩) args rest
          refine forall₂_trans (R := Option.Rel E) ?_ args' tail
          rintro a b d before ⟨c, here, after⟩
          exact orient_between symm v before here after
        obtain ⟨same, rfl⟩ | ⟨function, method, recv, split⟩ := answers
        · exact ⟨y.args, .inl ⟨code.trans (same.trans code''), rfl⟩, related_between ret' ret ret'',
            compared args'', fun ctor => related_trans trans (proto' ctor)
              (related_trans trans (proto (code ▸ ctor)) (proto'' (same ▸ code ▸ ctor)))⟩
        · rw [split] at args''
          obtain ⟨recv', ws, _, rest, split'⟩ := List.forall₂_cons_left_iff.1 args''
          refine ⟨ws, .inr ⟨code.trans function, code''.symm.trans method, recv', split'⟩,
            related_between ret' ret ret'', compared rest, fun ctor => ?_⟩
          rw [code, function] at ctor
          cases ctor
      | _ => exact right.elim
    | _ => exact left.elim
  · cases k with
    | object ps =>
      cases n with
      | object rs =>
        intro r hr
        obtain ⟨q, hq, qr⟩ := List.mem_map.1 ((right.1 r.id).2 (List.mem_map_of_mem hr))
        obtain ⟨p', hp', pq, type⟩ := h q hq
        obtain ⟨p, hp, pp⟩ := List.mem_map.1 ((left.1 p'.id).2 (List.mem_map_of_mem hp'))
        exact ⟨p, hp, pp.trans (pq.trans qr), related_trans trans (left.2 p hp p' hp' pp).2
          (related_trans trans type (right.2 q hq r hr qr).2)⟩
      | _ => exact right.elim
    | _ => exact left.elim
  · cases k with
    | array a =>
      cases n with
      | array d => exact related_trans trans left (related_trans trans h right)
      | _ => exact right.elim
    | _ => exact left.elim
  · cases k with
    | map a =>
      cases n with
      | map d => exact related_trans trans left (related_trans trans h right)
      | _ => exact right.elim
    | _ => exact left.elim
  · exact h.elim

end Node

namespace Graph

def equalRules (g : Graph) : (TypeId → TypeId → Prop) →o (TypeId → TypeId → Prop) where
  toFun R a b := (g.node a).EqualBy R (g.node b)
  monotone' _ _ le _ _ := Node.EqualBy.mono le

/-- Structural equality of types: the largest relation that obeys the rules of equality. -/
def Equal (g : Graph) : TypeId → TypeId → Prop := g.equalRules.gfp

def subtypeRules (g : Graph) (v : Variance) :
    (TypeId → TypeId → Prop) →o (TypeId → TypeId → Prop) where
  toFun S a b := (g.node a).SubtypeBy v g.Equal S (g.node b)
  monotone' _ _ le _ _ := Node.SubtypeBy.mono (fun _ _ h => h) le

def Subtype (g : Graph) (v : Variance) : TypeId → TypeId → Prop := (g.subtypeRules v).gfp

theorem Equal.parts {g : Graph} (h : g.Equal a b) : (g.node a).EqualBy g.Equal (g.node b) :=
  (g.equalRules.map_gfp.symm ▸ h : g.equalRules g.equalRules.gfp a b)

theorem Equal.coinduct {g : Graph} (R : TypeId → TypeId → Prop)
    (obeys : ∀ a b, R a b → (g.node a).EqualBy R (g.node b)) (h : R a b) : g.Equal a b :=
  g.equalRules.le_gfp (a := R) obeys a b h

theorem Equal.of_parts {g : Graph} (h : (g.node a).EqualBy g.Equal (g.node b)) : g.Equal a b :=
  Equal.coinduct (fun a b => (g.node a).EqualBy g.Equal (g.node b)) (fun _ _ h => h.mono fun _ _ h => h.parts) h

theorem Subtype.parts {g : Graph} (h : g.Subtype v a b) :
    (g.node a).SubtypeBy v g.Equal (g.Subtype v) (g.node b) :=
  ((g.subtypeRules v).map_gfp.symm ▸ h : (g.subtypeRules v) (g.subtypeRules v).gfp a b)

theorem Subtype.coinduct {g : Graph} (S : TypeId → TypeId → Prop)
    (obeys : ∀ a b, S a b → (g.node a).SubtypeBy v g.Equal S (g.node b)) (h : S a b) :
    g.Subtype v a b :=
  (g.subtypeRules v).le_gfp (a := S) obeys a b h

theorem Equal.refl {g : Graph} (formed : g.WellFormed t) : g.Equal t t := by
  refine Equal.coinduct (fun a b => a = b ∧ g.WellFormed a) ?_ ⟨rfl, formed⟩
  rintro a _ ⟨rfl, formed⟩
  exact Node.EqualBy.refl formed.node fun u edge => ⟨rfl, formed.child edge⟩

theorem Equal.symm {g : Graph} (h : g.Equal a b) : g.Equal b a :=
  Equal.coinduct (fun a b => g.Equal b a) (fun _ _ h => h.parts.symm fun _ _ h => h) h

theorem Equal.trans {g : Graph} (h : g.Equal a b) (k : g.Equal b c) : g.Equal a c := by
  refine Equal.coinduct (fun a c => ∃ b, g.Equal a b ∧ g.Equal b c) ?_ ⟨b, h, k⟩
  rintro a c ⟨b, h, k⟩
  exact h.parts.trans (fun _ y _ h k => ⟨y, h, k⟩) k.parts

theorem Subtype.refl {g : Graph} (formed : g.WellFormed t) : g.Subtype v t t := by
  refine Subtype.coinduct (fun a b => a = b ∧ g.WellFormed a) ?_ ⟨rfl, formed⟩
  rintro a _ ⟨rfl, formed⟩
  exact Node.SubtypeBy.refl formed.node (fun u edge => Equal.refl (formed.child edge))
    fun u edge => ⟨rfl, formed.child edge⟩

/-- Equal types are interchangeable on both sides of subtyping. -/
theorem Subtype.congr {g : Graph} (left : g.Equal a a') (h : g.Subtype v a' b') (right : g.Equal b' b) :
    g.Subtype v a b := by
  refine Subtype.coinduct (Node.Between g.Equal (g.Subtype v)) ?_ ⟨a', b', left, h, right⟩
  rintro a b ⟨a', b', left, h, right⟩
  exact Node.SubtypeBy.between (E := g.Equal) (fun _ _ h => h.symm) (fun _ _ _ h k => h.trans k)
    left.parts h.parts right.parts

end Graph

end Gradual
