import Gradual.Proofs.Types.Relations
import Mathlib.Data.List.Perm.Subperm
import Mathlib.Order.CompletePartialOrder
import Mathlib.Order.ConditionallyCompleteLattice.Basic

/-!
The checker decides the structural relations: whatever it answers within its bound is the truth about
the greatest fixed points, for either variance and with any oracle that tells the truth.

A pair that is met again while it is being checked counts as related. `assuming f x` is what the rules
`f` establish when the pairs of `x` are taken for granted, and a pair that follows from the rules while
it is assumed itself holds without that assumption.
-/
namespace Gradual

section Assumption

variable {α : Type} [CompleteLattice α] {f : α →o α} {x y : α}

/-- What the rules establish when some goals are taken for granted on the way. -/
def assuming (f : α →o α) (x : α) : α := (OrderHom.const α x ⊔ f).gfp

theorem assuming_eq (f : α →o α) (x : α) : x ⊔ f (assuming f x) = assuming f x :=
  (OrderHom.const α x ⊔ f).map_gfp

theorem le_assuming : x ≤ assuming f x :=
  le_sup_left.trans (assuming_eq f x).le

theorem map_assuming_le : f (assuming f x) ≤ assuming f x :=
  le_sup_right.trans (assuming_eq f x).le

theorem assuming_coinduct (h : y ≤ x ⊔ f y) : y ≤ assuming f x :=
  (OrderHom.const α x ⊔ f).le_gfp h

theorem gfp_le_assuming : f.gfp ≤ assuming f x :=
  assuming_coinduct (le_sup_right.trans' f.map_gfp.ge)

theorem assuming_bot (f : α →o α) : assuming f ⊥ = f.gfp := by
  refine le_antisymm (f.le_gfp ?_) gfp_le_assuming
  exact (assuming_eq f ⊥).ge.trans (by rw [bot_sup_eq])

/-- What the rules establish from goals that are assumed needs no such assumption. -/
theorem le_assuming_of_step (step : y ≤ f (assuming f (x ⊔ y))) : y ≤ assuming f x := by
  have grown : f (assuming f (x ⊔ y)) ≤ f (assuming f (x ⊔ y) ⊔ y) := f.mono le_sup_left
  have assumed : y ≤ x ⊔ f (assuming f (x ⊔ y) ⊔ y) := step.trans (grown.trans le_sup_right)
  have closed : assuming f (x ⊔ y) ⊔ y ≤ x ⊔ f (assuming f (x ⊔ y) ⊔ y) := by
    refine sup_le ((assuming_eq f (x ⊔ y)).ge.trans ?_) assumed
    exact sup_le (sup_le le_sup_left assumed) (grown.trans le_sup_right)
  exact le_sup_right.trans (assuming_coinduct closed)

end Assumption

theorem assumed_of_le {R S : α → α → Prop} (le : R ≤ S) (h : R a b) : S a b := le a b h

namespace Trial

variable {α β : Type}

theorem and_eq_yes {t : Trial} {next : Unit → Trial} :
    (t.and next).result = .ok true ↔ t.result = .ok true ∧ (next ()).result = .ok true := by
  unfold Trial.and
  split <;> simp_all

theorem and_eq_no {t : Trial} {next : Unit → Trial} (h : (t.and next).result = .ok false) :
    t.result = .ok false ∨ (next ()).result = .ok false := by
  unfold Trial.and at h
  split at h <;> simp_all

theorem all_eq_yes {f : α → Trial} {xs : List α} :
    (all f xs).result = .ok true ↔ ∀ x ∈ xs, (f x).result = .ok true := by
  induction xs with
  | nil => simp [all, yes]
  | cons x xs ih => simp [all, and_eq_yes, ih]

theorem all_eq_no {f : α → Trial} {xs : List α} (h : (all f xs).result = .ok false) :
    ∃ x ∈ xs, (f x).result = .ok false := by
  induction xs with
  | nil => simp [all, yes] at h
  | cons x xs ih =>
    rcases and_eq_no h with here | later
    · exact ⟨x, by simp, here⟩
    · obtain ⟨y, member, refuted⟩ := ih later
      exact ⟨y, by simp [member], refuted⟩

theorem pairwise_eq_yes {f : α → β → Trial} {xs : List α} {ys : List β} (same : xs.length = ys.length)
    (h : (pairwise f xs ys).result = .ok true) :
    List.Forall₂ (fun x y => (f x y).result = .ok true) xs ys := by
  induction xs generalizing ys with
  | nil => cases ys with
    | nil => exact .nil
    | cons => simp at same
  | cons x xs ih => cases ys with
    | nil => simp at same
    | cons y ys =>
      obtain ⟨here, later⟩ := and_eq_yes.1 h
      exact .cons here (ih (by simpa using same) later)

theorem pairwise_eq_no {R : α → β → Prop} {f : α → β → Trial} {xs : List α} {ys : List β}
    (related : List.Forall₂ R xs ys) (h : (pairwise f xs ys).result = .ok false) :
    ∃ x ∈ xs, ∃ y ∈ ys, R x y ∧ (f x y).result = .ok false := by
  induction related with
  | nil => simp [pairwise, yes] at h
  | @cons x y xs ys rel _ ih =>
    rcases and_eq_no h with here | later
    · exact ⟨x, by simp, y, by simp, rel, here⟩
    · obtain ⟨x', hx, y', hy, rel', refuted⟩ := ih later
      exact ⟨x', by simp [hx], y', by simp [hy], rel', refuted⟩

end Trial

theorem related_of_some {R : TypeId → TypeId → Prop} {a b : Child} (left : a.isSome) (right : b.isSome)
    (h : ∀ x y, a = some x → b = some y → R x y) : Option.Rel R a b := by
  obtain ⟨x, rfl⟩ := Option.isSome_iff_exists.1 left
  obtain ⟨y, rfl⟩ := Option.isSome_iff_exists.1 right
  exact .some (h x y rfl rfl)

theorem related_isSome {R : TypeId → TypeId → Prop} {a b : Child} (h : Option.Rel R a b) (left : a.isSome) :
    b.isSome := by
  cases h with
  | some => rfl
  | none => exact left

/-- Parts that were found not to be related are not. -/
theorem not_related {R : TypeId → TypeId → Prop} {compare : Child → Child → Trial} {a b : Child}
    (left : a.isSome) (no : (compare a b).result = .ok false)
    (refutes : ∀ x y, a = some x → b = some y → (compare (some x) (some y)).result = .ok false →
      ¬ R x y) : ¬ Option.Rel R a b := by
  intro h
  cases h with
  | some h => exact refutes _ _ rfl rfl no h
  | none => simp at left

theorem Property.mem_of_find? {ps : List Property} {i : PropId} (h : Property.find? ps i = some p) :
    p ∈ ps ∧ p.id = i :=
  ⟨List.mem_of_find?_eq_some h, by simpa using List.find?_some h⟩

/-- With distinct ids, the property found is the only one with its id. -/
theorem Property.find?_eq_of_mem {ps : List Property} (distinct : (ps.map (·.id)).Nodup) (h : p ∈ ps) :
    Property.find? ps p.id = some p := by
  cases found : Property.find? ps p.id with
  | none => simpa using List.find?_eq_none.1 found p h
  | some q =>
    obtain ⟨member, same⟩ := mem_of_find? found
    rw [List.inj_on_of_nodup_map distinct member h same]

namespace Node

def Agreed (compare : Child → Child → Trial) (m n : Node) (x y : TypeId) : Prop :=
  x ∈ m.children ++ n.children ∧ y ∈ m.children ++ n.children ∧
    (compare (some x) (some y)).result = .ok true

theorem Agreed.across {compare : Child → Child → Trial} {m n : Node} (left : x ∈ m.children)
    (right : y ∈ n.children) (h : (compare (some x) (some y)).result = .ok true) :
    Agreed compare m n x y :=
  ⟨List.mem_append_left _ left, List.mem_append_right _ right, h⟩

theorem Agreed.back {compare : Child → Child → Trial} {m n : Node} (left : x ∈ m.children)
    (right : y ∈ n.children) (h : (compare (some y) (some x)).result = .ok true) :
    Agreed compare m n y x :=
  ⟨List.mem_append_right _ right, List.mem_append_left _ left, h⟩

/-- A part of the one node and a part of the other that agree. -/
theorem related_of_agreed {compare : Child → Child → Trial} {m n : Node} {a b : Child} (left : a.isSome)
    (right : b.isSome) (here : ∀ x, a = some x → x ∈ m.children) (there : ∀ y, b = some y → y ∈ n.children)
    (h : (compare a b).result = .ok true) : Option.Rel (Agreed compare m n) a b := by
  refine related_of_some left right ?_
  rintro x y rfl rfl
  exact .across (here x rfl) (there y rfl) h

variable {equal subtype : Child → Child → Trial}

theorem equalPrototypes_eq {a b : Child} (left : a.isSome) (right : b.isSome) :
    equalPrototypes equal a b = equal a b := by
  obtain ⟨x, rfl⟩ := Option.isSome_iff_exists.1 left
  obtain ⟨y, rfl⟩ := Option.isSome_iff_exists.1 right
  simp [equalPrototypes]

theorem closure_children {s : Signature} {c : Child} (h : c = s.ret ∨ c ∈ s.args ∨ c = s.proto)
    (here : c = some x) : x ∈ (closure s).children := by
  subst here
  simp only [children, List.mem_filterMap, List.mem_append, List.mem_cons, List.not_mem_nil, or_false]
  exact ⟨some x, by tauto, rfl⟩

theorem object_children {ps : List Property} {p : Property} (h : p ∈ ps) (here : p.type = some x) :
    x ∈ (object ps).children :=
  List.mem_filterMap.2 ⟨p, h, here⟩

theorem forall₂_of_asked {R : TypeId → TypeId → Prop} {P : Child → Child → Prop} {as bs : List Child}
    (left : ∀ a ∈ as, a.isSome) (right : ∀ b ∈ bs, b.isSome) (h : List.Forall₂ P as bs)
    (related : ∀ x y, some x ∈ as → some y ∈ bs → P (some x) (some y) → R x y) :
    List.Forall₂ (Option.Rel R) as bs := by
  induction h with
  | nil => exact .nil
  | @cons a b as bs h _ ih =>
    refine .cons (related_of_some (left a (by simp)) (right b (by simp)) ?_) (ih ?_ ?_ ?_)
    · rintro x y rfl rfl
      exact related x y (by simp) (by simp) h
    · exact fun a ha => left a (by simp [ha])
    · exact fun b hb => right b (by simp [hb])
    · exact fun x y hx hy => related x y (by simp [hx]) (by simp [hy])

/-- Distinct ids on the left, as many as on the right, and each of them found there: the same ids. -/
theorem same_ids {ps qs : List Property} (left : (ps.map (·.id)).Nodup)
    (length : ps.length = qs.length) (found : ∀ p ∈ ps, p.id ∈ qs.map (·.id)) (i : PropId) :
    i ∈ ps.map (·.id) ↔ i ∈ qs.map (·.id) := by
  have inside : ps.map (·.id) ⊆ qs.map (·.id) := by
    intro id member
    obtain ⟨p, hp, rfl⟩ := List.mem_map.1 member
    exact found p hp
  have perm := (List.Nodup.subperm left inside).perm_of_length_le (by simp [length])
  exact perm.mem_iff

theorem equalParts_yes {m n : Node} (left : m.WellFormed) (right : n.WellFormed)
    (h : (m.equalParts equal n).result = .ok true) : m.EqualBy (Agreed equal m n) n := by
  unfold equalParts at h
  split at h
  next x y =>
    split at h
    · simp [Trial.no] at h
    next fits =>
      simp only [not_or, not_not] at fits
      simp only [Trial.and_eq_yes] at h
      obtain ⟨proto, ret, args⟩ := h
      refine ⟨fits.1, ?_, ?_, fun ctor => ?_⟩
      · refine forall₂_of_asked left.args right.args (Trial.pairwise_eq_yes fits.2 args) ?_
        exact fun a b ha hb => .across (closure_children (.inr (.inl ha)) rfl)
          (closure_children (.inr (.inl hb)) rfl)
      · exact related_of_agreed left.ret right.ret (fun _ => closure_children (.inl rfl))
          (fun _ => closure_children (.inl rfl)) ret
      · have here := left.proto ctor
        have there := right.proto (fits.1 ▸ ctor)
        rw [if_pos ctor, equalPrototypes_eq here there] at proto
        exact related_of_agreed here there (fun _ => closure_children (.inr (.inr rfl)))
          (fun _ => closure_children (.inr (.inr rfl))) proto
  next ps qs =>
    split at h
    · simp [Trial.no] at h
    next length =>
      rw [Trial.all_eq_yes] at h
      have found (p : Property) (hp : p ∈ ps) : p.id ∈ qs.map (·.id) := by
        have := h p hp
        split at this
        · simp [Trial.no] at this
        next q hq => exact List.mem_map.2 ⟨q, Property.mem_of_find? hq⟩
      refine ⟨same_ids left.1 (not_not.1 length) found, fun p hp q hq same => ?_⟩
      have agreed := h p hp
      rw [same, Property.find?_eq_of_mem right.1 hq] at agreed
      by_cases flag : q.readOnly = p.readOnly
      · simp only [flag, ne_eq, not_true_eq_false, ↓reduceIte] at agreed
        exact ⟨flag.symm, related_of_agreed (left.2 p hp) (right.2 q hq) (fun _ => object_children hp)
          (fun _ => object_children hq) agreed⟩
      · simp [flag, Trial.no] at agreed
  next => exact related_of_agreed left right (fun _ => Option.mem_toList.2) (fun _ => Option.mem_toList.2) h
  next => exact related_of_agreed left right (fun _ => Option.mem_toList.2) (fun _ => Option.mem_toList.2) h
  · simp [Trial.no] at h

theorem equalParts_no {R : TypeId → TypeId → Prop} {m n : Node} (left : m.WellFormed)
    (right : n.WellFormed) (composite : m.isPrim = false)
    (h : (m.equalParts equal n).result = .ok false)
    (refutes : ∀ x ∈ m.children, ∀ y ∈ n.children,
      (equal (some x) (some y)).result = .ok false → ¬ R x y) : ¬ m.EqualBy R n := by
  intro claim
  unfold equalParts at h
  split at h
  next x y =>
    obtain ⟨code, args, ret, proto⟩ := claim
    rw [if_neg (by simp [code, args.length_eq])] at h
    have refuted {a b : Child} (here : a = x.ret ∨ a ∈ x.args ∨ a = x.proto)
        (there : b = y.ret ∨ b ∈ y.args ∨ b = y.proto) (present : a.isSome)
        (no : (equal a b).result = .ok false) : ¬ Option.Rel R a b :=
      not_related present no fun _ _ ha hb =>
        refutes _ (closure_children here ha) _ (closure_children there hb)
    rcases Trial.and_eq_no h with no | h
    · by_cases ctor : x.code = .constructor
      · rw [if_pos ctor, equalPrototypes_eq (left.proto ctor) (right.proto (code ▸ ctor))] at no
        exact refuted (by simp) (by simp) (left.proto ctor) no (proto ctor)
      · simp [ctor, Trial.yes] at no
    rcases Trial.and_eq_no h with no | h
    · exact refuted (by simp) (by simp) left.ret no ret
    · obtain ⟨a, ha, b, hb, rel, no⟩ := Trial.pairwise_eq_no args h
      exact refuted (by simp [ha]) (by simp [hb]) (left.args a ha) no rel
  next ps qs =>
    have length : ps.length = qs.length := by
      have perm := (List.perm_ext_iff_of_nodup left.1 right.1).2 claim.1
      simpa using perm.length_eq
    rw [if_neg (not_not.2 length)] at h
    obtain ⟨p, hp, no⟩ := Trial.all_eq_no h
    obtain ⟨q, hq, same⟩ := List.mem_map.1 ((claim.1 p.id).1 (List.mem_map_of_mem hp))
    obtain ⟨flag, rel⟩ := claim.2 p hp q hq same.symm
    rw [← same, Property.find?_eq_of_mem right.1 hq] at no
    simp only [flag, ne_eq, not_true_eq_false, ↓reduceIte] at no
    exact not_related (left.2 p hp) no
      (fun _ _ ha hb => refutes _ (object_children hp ha) _ (object_children hq hb)) rel
  next a b =>
    exact not_related left h
      (fun _ _ ha hb => refutes _ (by simp [children, ha]) _ (by simp [children, hb])) claim
  next a b =>
    exact not_related left h
      (fun _ _ ha hb => refutes _ (by simp [children, ha]) _ (by simp [children, hb])) claim
  · cases m <;> cases n <;> simp_all [EqualBy, isPrim]

/-- The arguments that the checker compares are those the signatures answer to. -/
theorem answers_of_fits {s t : Signature} (h : s.fits t) :
    s.Answers t (if s.promotes t then t.args.drop 1 else t.args) ∧
      s.args.length = (if s.promotes t then t.args.drop 1 else t.args).length := by
  by_cases stands : s.code = .function ∧ t.code = .method
  · obtain ⟨function, method⟩ := stands
    simp only [Signature.fits, Signature.promotes, function, method, reduceCtorEq, decide_false,
      Bool.false_and, Bool.false_or, decide_true, Bool.and_self, Bool.true_and, decide_eq_true_eq] at h
    obtain ⟨recv, rest, split⟩ := List.exists_cons_of_length_eq_add_one h.symm
    simp only [Signature.promotes, function, method, decide_true, Bool.and_self, ↓reduceIte, split,
      List.drop_succ_cons, List.drop_zero]
    exact ⟨.inr ⟨function, method, recv, split⟩, by simpa [split] using h⟩
  · have keeps : s.promotes t = false := by simpa [Signature.promotes] using stands
    simp only [Signature.fits, keeps, Bool.false_and, Bool.or_false, Bool.and_eq_true,
      decide_eq_true_eq] at h
    simp only [keeps, Bool.false_eq_true, ↓reduceIte]
    exact ⟨.inl ⟨h.1, rfl⟩, h.2⟩

theorem fits_of_answers {s t : Signature} {wanted : List Child} (h : s.Answers t wanted)
    (length : s.args.length = wanted.length) :
    s.fits t = true ∧ (if s.promotes t then t.args.drop 1 else t.args) = wanted := by
  obtain ⟨same, rfl⟩ | ⟨function, method, recv, split⟩ := h
  · have keeps : s.promotes t = false := by
      simp only [Signature.promotes, same, Bool.and_eq_false_iff, decide_eq_false_iff_not]
      by_cases method : t.code = .method
      · simp [method]
      · exact .inr method
    simp [Signature.fits, keeps, same, length]
  · simp [Signature.fits, Signature.promotes, function, method, split, length]

theorem subtypeAtOnce?_prim (p q : Prim) :
    (prim p).subtypeAtOnce? (prim q) = some (decide (p = q ∨ (p = .int ∧ q = .float))) := by
  cases p <;> cases q <;> rfl

theorem subtypeAtOnce?_prim_ne_none {p q : Prim} : (prim p).subtypeAtOnce? (prim q) ≠ none := by
  simp [subtypeAtOnce?_prim]

/-- A verdict without a look at the parts is right whatever is related. -/
theorem subtypeAtOnce?_iff {v : Variance} {E S : TypeId → TypeId → Prop} {m n : Node}
    (h : m.subtypeAtOnce? n = some r) : r = true ↔ m.SubtypeBy v E S n := by
  cases m with
  | prim p =>
    cases n with
    | prim q =>
      rw [subtypeAtOnce?_prim, Option.some.injEq] at h
      simp [← h, SubtypeBy]
    | _ => simp_all [subtypeAtOnce?, SubtypeBy]
  | closure s =>
    cases n with
    | closure t =>
      simp only [subtypeAtOnce?] at h
      split at h
      · cases h
      next misfit =>
        cases h
        refine ⟨by simp, ?_⟩
        rintro ⟨wanted, answers, _, args, _⟩
        exact absurd (fits_of_answers answers args.length_eq).1 misfit
    | _ => simp_all [subtypeAtOnce?, SubtypeBy]
  | _ => cases n <;> simp_all [subtypeAtOnce?, SubtypeBy]

theorem subtypeParts_yes {v : Variance} {m n : Node} (left : m.WellFormed) (right : n.WellFormed)
    (undecided : m.subtypeAtOnce? n = none)
    (h : (m.subtypeParts v equal subtype n).result = .ok true) :
    m.SubtypeBy v (Agreed equal m n) (Agreed subtype m n) n := by
  unfold subtypeParts at h
  split at h
  next s t =>
    have fits : s.fits t = true := by
      simp only [subtypeAtOnce?] at undecided
      split at undecided
      · assumption
      · cases undecided
    obtain ⟨answers, length⟩ := answers_of_fits fits
    have wanted (b : Child) (hb : b ∈ if s.promotes t then t.args.drop 1 else t.args) : b ∈ t.args := by
      split at hb
      · exact List.mem_of_mem_drop hb
      · exact hb
    simp only [Trial.and_eq_yes] at h
    obtain ⟨ret, args, proto⟩ := h
    refine ⟨_, answers, ?_, ?_, fun ctor => ?_⟩
    · exact related_of_agreed left.ret right.ret (fun _ => closure_children (.inl rfl))
        (fun _ => closure_children (.inl rfl)) ret
    · have asked := Trial.pairwise_eq_yes length args
      cases v with
      | covariant =>
        refine forall₂_of_asked left.args (fun b hb => right.args b (wanted b hb)) asked ?_
        exact fun a b ha hb => .across (closure_children (.inr (.inl ha)) rfl)
          (closure_children (.inr (.inl (wanted _ hb))) rfl)
      | contravariant =>
        have flipped := forall₂_of_asked (R := fun a b => Agreed subtype (closure s) (closure t) b a)
          left.args (fun b hb => right.args b (wanted b hb)) asked
          fun a b ha hb => .back (closure_children (.inr (.inl ha)) rfl)
            (closure_children (.inr (.inl (wanted _ hb))) rfl)
        exact flipped.imp fun _ _ => related_symm fun _ _ h => h
    · have same : s.code = t.code := by
        rcases answers with same | ⟨function, _⟩
        · exact same.1
        · rw [function] at ctor; cases ctor
      have here := left.proto ctor
      have there := right.proto (same ▸ ctor)
      rw [if_pos ctor, equalPrototypes_eq here there] at proto
      exact related_of_agreed here there (fun _ => closure_children (.inr (.inr rfl)))
        (fun _ => closure_children (.inr (.inr rfl))) proto
  next ps qs =>
    rw [Trial.all_eq_yes] at h
    intro q hq
    have agreed := h q hq
    split at agreed
    · simp [Trial.no] at agreed
    next p found =>
      obtain ⟨hp, same⟩ := Property.mem_of_find? found
      exact ⟨p, hp, same, related_of_agreed (left.2 p hp) (right.2 q hq) (fun _ => object_children hp)
        (fun _ => object_children hq) agreed⟩
  next => exact related_of_agreed left right (fun _ => Option.mem_toList.2) (fun _ => Option.mem_toList.2) h
  next => exact related_of_agreed left right (fun _ => Option.mem_toList.2) (fun _ => Option.mem_toList.2) h
  · simp [Trial.no] at h

theorem subtypeParts_no {v : Variance} {E S : TypeId → TypeId → Prop} {m n : Node}
    (left : m.WellFormed) (right : n.WellFormed) (undecided : m.subtypeAtOnce? n = none)
    (h : (m.subtypeParts v equal subtype n).result = .ok false)
    (unequal : ∀ x ∈ m.children, ∀ y ∈ n.children,
      (equal (some x) (some y)).result = .ok false → ¬ E x y)
    (refutes : ∀ x ∈ m.children ++ n.children, ∀ y ∈ m.children ++ n.children,
      (subtype (some x) (some y)).result = .ok false → ¬ S x y) : ¬ m.SubtypeBy v E S n := by
  intro claim
  unfold subtypeParts at h
  split at h
  next s t =>
    obtain ⟨wanted, answers, ret, args, proto⟩ := claim
    rw [(fits_of_answers answers args.length_eq).2] at h
    have inside (b : Child) (hb : b ∈ wanted) : b ∈ t.args := by
      rcases answers with ⟨_, rfl⟩ | ⟨_, _, recv, split⟩
      · exact hb
      · simp [split, hb]
    have inLeft {a : Child} (here : a = s.ret ∨ a ∈ s.args ∨ a = s.proto) x (hx : a = some x) :
        x ∈ (closure s).children ++ (closure t).children :=
      List.mem_append_left _ (closure_children here hx)
    have inRight {b : Child} (there : b = t.ret ∨ b ∈ t.args ∨ b = t.proto) y (hy : b = some y) :
        y ∈ (closure s).children ++ (closure t).children :=
      List.mem_append_right _ (closure_children there hy)
    rcases Trial.and_eq_no h with no | h
    · exact not_related left.ret no
        (fun x y hx hy => refutes x (inLeft (by simp) x hx) y (inRight (by simp) y hy)) ret
    rcases Trial.and_eq_no h with no | no
    · obtain ⟨a, ha, b, hb, rel, no⟩ := Trial.pairwise_eq_no args no
      have here := inLeft (.inr (.inl ha))
      have there := inRight (.inr (.inl (inside b hb)))
      cases v with
      | covariant =>
        exact not_related (left.args a ha) no (fun x y hx hy => refutes x (here x hx) y (there y hy)) rel
      | contravariant =>
        exact not_related (right.args b (inside b hb)) no
          (fun y x hy hx => refutes y (there y hy) x (here x hx)) rel
    · by_cases ctor : s.code = .constructor
      · have present := left.proto ctor
        rw [if_pos ctor, equalPrototypes_eq present (related_isSome (proto ctor) present)] at no
        exact not_related present no (fun _ _ ha hb => unequal _ (closure_children (by simp) ha) _
          (closure_children (by simp) hb)) (proto ctor)
      · simp [ctor, Trial.yes] at no
  next ps qs =>
    obtain ⟨q, hq, no⟩ := Trial.all_eq_no h
    obtain ⟨p, hp, same, rel⟩ := claim q hq
    rw [← same, Property.find?_eq_of_mem left.1 hp] at no
    exact not_related (left.2 p hp) no
      (fun _ _ ha hb => unequal _ (object_children hp ha) _ (object_children hq hb)) rel
  next a b =>
    exact not_related left h
      (fun _ _ ha hb => unequal _ (by simp [children, ha]) _ (by simp [children, hb])) claim
  next a b =>
    exact not_related left h
      (fun _ _ ha hb => unequal _ (by simp [children, ha]) _ (by simp [children, hb])) claim
  · cases m with
    | prim p => cases n with
      | prim q => exact subtypeAtOnce?_prim_ne_none undecided
      | _ => exact claim
    | _ => cases n <;> simp_all [SubtypeBy]

end Node

/-- Every answer of the oracle is the truth; it need not have one. -/
structure Oracle.Truthful (o : Oracle) (g : Graph) (v : Variance) : Prop where
  equal : ∀ a b r, o .equal a b = some r → (r = true ↔ g.Equal a b)
  subtype : ∀ a b r, o .subtype a b = some r → (r = true ↔ g.Subtype v a b)

theorem Oracle.silent_truthful (g : Graph) (v : Variance) : Oracle.silent.Truthful g v :=
  ⟨fun _ _ _ h => (nomatch h), fun _ _ _ h => (nomatch h)⟩

def assumedEqual (seen : List Hypothesis) (a b : TypeId) : Prop :=
  ⟨.equal, a, b⟩ ∈ seen ∨ ⟨.equal, b, a⟩ ∈ seen

def assumedSubtype (seen : List Hypothesis) (a b : TypeId) : Prop := ⟨.subtype, a, b⟩ ∈ seen

theorem assumedEqual_cons (seen : List Hypothesis) (a b : TypeId) :
    assumedEqual (⟨.equal, a, b⟩ :: seen) =
      assumedEqual seen ⊔ fun x y => (x = a ∧ y = b) ∨ (x = b ∧ y = a) := by
  funext x y
  simp only [assumedEqual, List.mem_cons, Hypothesis.mk.injEq, true_and, Pi.sup_apply, sup_Prop_eq,
    eq_iff_iff]
  tauto

theorem assumedSubtype_cons (seen : List Hypothesis) (a b : TypeId) :
    assumedSubtype (⟨.subtype, a, b⟩ :: seen) = assumedSubtype seen ⊔ fun x y => x = a ∧ y = b := by
  funext x y
  simp only [assumedSubtype, List.mem_cons, Hypothesis.mk.injEq, true_and, Pi.sup_apply, sup_Prop_eq,
    eq_iff_iff]
  tauto

/-- Equality under assumptions that hold in both directions is symmetric. -/
theorem assuming_equal_symm {g : Graph} (seen : List Hypothesis)
    (h : assuming g.equalRules (assumedEqual seen) a b) :
    assuming g.equalRules (assumedEqual seen) b a := by
  refine assumed_of_le (assuming_coinduct
    (y := fun x y => assuming g.equalRules (assumedEqual seen) y x) ?_) h
  intro x y related
  rw [← assuming_eq] at related
  rcases related with assumed | parts
  · exact .inl (Or.symm assumed)
  · exact .inr (Node.EqualBy.symm (fun _ _ h => h) parts)

namespace Checker

variable {c : Checker} {g : Graph}

theorem same_prim {m n : Node} (right : n.WellFormed) (kind : m.kindCode = n.kindCode)
    (prim : m.isPrim = true) : ∃ p, m = .prim p ∧ n = .prim p := by
  cases m with
  | prim p =>
    cases n with
    | prim q =>
      refine ⟨p, rfl, ?_⟩
      cases p <;> cases q <;> first | rfl | simp [Node.kindCode, Prim.code, Prim.typeId] at kind
    | odd => exact right.elim
    | _ => cases p <;> simp [Node.kindCode, Prim.code, Prim.typeId] at kind
  | _ => simp [Node.isPrim] at prim

theorem kindCode_eq_of_equalBy {R : TypeId → TypeId → Prop} {m n : Node} (h : m.EqualBy R n) :
    m.kindCode = n.kindCode := by
  cases m <;> cases n <;> first | rfl | exact h.elim | exact congrArg Prim.code h

theorem equalAtOnce?_yes (truthful : c.oracle.Truthful g v) (left : g.WellFormed a)
    (right : g.WellFormed b) (h : c.equalAtOnce? g seen a b = some t) (yes : t.result = .ok true) :
    assuming g.equalRules (assumedEqual seen) a b := by
  unfold equalAtOnce? at h
  split at h
  next known =>
    rcases known with rfl | known | known
    · exact assumed_of_le gfp_le_assuming (Graph.Equal.refl left)
    · exact assumed_of_le le_assuming (.inl known)
    · exact assumed_of_le le_assuming (.inr known)
  split at h
  · cases h; simp [Trial.no] at yes
  next kind =>
    split at h
    next prim =>
      obtain ⟨p, here, there⟩ := same_prim right.node (not_not.1 kind) prim
      refine assumed_of_le map_assuming_le ?_
      change (g.node a).EqualBy _ (g.node b)
      rw [here, there]
      rfl
    · obtain ⟨r, told, rfl⟩ := Option.map_eq_some_iff.1 h
      simp only [Trial.told, Except.ok.injEq] at yes
      exact assumed_of_le gfp_le_assuming ((truthful.equal a b r told).1 yes)

theorem equalAtOnce?_no (truthful : c.oracle.Truthful g v) (h : c.equalAtOnce? g seen a b = some t)
    (no : t.result = .ok false) : ¬ g.Equal a b := by
  unfold equalAtOnce? at h
  split at h
  · cases h; simp [Trial.yes] at no
  split at h
  next kind => exact fun equal => kind (kindCode_eq_of_equalBy equal.parts)
  split at h
  · cases h; simp [Trial.yes] at no
  · obtain ⟨r, told, rfl⟩ := Option.map_eq_some_iff.1 h
    simp only [Trial.told, Except.ok.injEq] at no
    subst no
    exact fun equal => Bool.false_ne_true ((truthful.equal a b false told).2 equal)

theorem equalAtOnce?_none (h : c.equalAtOnce? g seen a b = none) : (g.node a).isPrim = false := by
  unfold equalAtOnce? at h
  split at h
  · cases h
  split at h
  · cases h
  split at h
  · cases h
  next composite => simpa using composite

/-- A yes is right under the hypotheses that were open. -/
theorem equalWithin_yes (truthful : c.oracle.Truthful g v) (budget : Nat) (seen : List Hypothesis)
    (left : g.WellFormed a) (right : g.WellFormed b)
    (h : (c.equalWithin g budget seen (some a) (some b)).result = .ok true) :
    assuming g.equalRules (assumedEqual seen) a b := by
  induction budget generalizing seen a b with
  | zero =>
    unfold equalWithin at h
    split at h
    next atOnce => exact equalAtOnce?_yes truthful left right atOnce h
    · simp [Trial.fail] at h
  | succ rest ih =>
    unfold equalWithin at h
    split at h
    next atOnce => exact equalAtOnce?_yes truthful left right atOnce h
    · have formed (x : TypeId) (hx : x ∈ g.children a ++ g.children b) : g.WellFormed x :=
        (List.mem_append.1 hx).elim left.child right.child
      have parts := (Node.equalParts_yes left.node right.node h).mono
        fun x y agreed => ih _ (formed x agreed.1) (formed y agreed.2.1) agreed.2.2
      have back := parts.symm fun x y => assuming_equal_symm (a := x) (b := y) (⟨.equal, a, b⟩ :: seen)
      rw [assumedEqual_cons] at parts back
      refine assumed_of_le (R := fun x y => (x = a ∧ y = b) ∨ (x = b ∧ y = a)) (le_assuming_of_step ?_)
        (.inl ⟨rfl, rfl⟩)
      rintro x y (⟨rfl, rfl⟩ | ⟨rfl, rfl⟩)
      · exact parts
      · exact back

theorem equalWithin_no (truthful : c.oracle.Truthful g v) (budget : Nat) (seen : List Hypothesis)
    (left : g.WellFormed a) (right : g.WellFormed b)
    (h : (c.equalWithin g budget seen (some a) (some b)).result = .ok false) : ¬ g.Equal a b := by
  induction budget generalizing seen a b with
  | zero =>
    unfold equalWithin at h
    split at h
    next atOnce => exact equalAtOnce?_no truthful atOnce h
    · simp [Trial.fail] at h
  | succ rest ih =>
    unfold equalWithin at h
    split at h
    next atOnce => exact equalAtOnce?_no truthful atOnce h
    next undecided =>
      intro equal
      refine Node.equalParts_no left.node right.node (equalAtOnce?_none undecided) h ?_ equal.parts
      exact fun x hx y hy no => ih _ (left.child hx) (right.child hy) no

theorem subtypeAtOnce?_yes (truthful : c.oracle.Truthful g v) (left : g.WellFormed a)
    (h : c.subtypeAtOnce? g seen a b = some t) (yes : t.result = .ok true) :
    assuming (g.subtypeRules v) (assumedSubtype seen) a b := by
  unfold subtypeAtOnce? at h
  split at h
  next known =>
    rcases known with rfl | known
    · exact assumed_of_le gfp_le_assuming (Graph.Subtype.refl left)
    · exact assumed_of_le le_assuming known
  split at h
  next r told =>
    cases h
    simp only [Trial.told, Except.ok.injEq] at yes
    exact assumed_of_le gfp_le_assuming ((truthful.subtype a b r told).1 yes)
  · obtain ⟨r, verdict, rfl⟩ := Option.map_eq_some_iff.1 h
    simp only [Trial.known, Except.ok.injEq] at yes
    exact assumed_of_le map_assuming_le ((Node.subtypeAtOnce?_iff verdict).1 yes)

theorem subtypeAtOnce?_no (truthful : c.oracle.Truthful g v) (h : c.subtypeAtOnce? g seen a b = some t)
    (no : t.result = .ok false) : ¬ g.Subtype v a b := by
  unfold subtypeAtOnce? at h
  split at h
  · cases h; simp [Trial.yes] at no
  split at h
  next r told =>
    cases h
    simp only [Trial.told, Except.ok.injEq] at no
    subst no
    exact fun subtype => Bool.false_ne_true ((truthful.subtype a b false told).2 subtype)
  · obtain ⟨r, verdict, rfl⟩ := Option.map_eq_some_iff.1 h
    simp only [Trial.known, Except.ok.injEq] at no
    subst no
    exact fun subtype => Bool.false_ne_true ((Node.subtypeAtOnce?_iff verdict).2 subtype.parts)

theorem subtypeAtOnce?_none (h : c.subtypeAtOnce? g seen a b = none) :
    (g.node a).subtypeAtOnce? (g.node b) = none := by
  unfold subtypeAtOnce? at h
  split at h
  · cases h
  split at h
  · cases h
  · simpa using h

/-- A yes is right under the subtypings that were assumed; no equality is assumed on the way to one, so
the equalities of parts hold outright. -/
theorem subtypeWithin_yes (truthful : c.oracle.Truthful g c.variance) (budget : Nat)
    (seen : List Hypothesis) (only : ∀ h ∈ seen, h.rel = .subtype) (left : g.WellFormed a)
    (right : g.WellFormed b)
    (h : (c.subtypeWithin g budget seen (some a) (some b)).result = .ok true) :
    assuming (g.subtypeRules c.variance) (assumedSubtype seen) a b := by
  induction budget generalizing seen a b with
  | zero =>
    unfold subtypeWithin at h
    split at h
    next atOnce => exact subtypeAtOnce?_yes truthful left atOnce h
    · simp [Trial.fail] at h
  | succ rest ih =>
    unfold subtypeWithin at h
    split at h
    next atOnce => exact subtypeAtOnce?_yes truthful left atOnce h
    next undecided =>
      have formed (x : TypeId) (hx : x ∈ g.children a ++ g.children b) : g.WellFormed x :=
        (List.mem_append.1 hx).elim left.child right.child
      have only' : ∀ h ∈ (⟨.subtype, a, b⟩ :: seen : List Hypothesis), h.rel = .subtype := by
        simpa using only
      have noEqual : assumedEqual (⟨.subtype, a, b⟩ :: seen) = ⊥ := by
        funext x y
        refine eq_false fun assumed => ?_
        rcases assumed with assumed | assumed <;> exact nomatch only' _ assumed
      have parts := (Node.subtypeParts_yes left.node right.node (subtypeAtOnce?_none undecided) h).mono
        (F := g.Equal)
        (fun x y agreed => by
          have equal := equalWithin_yes truthful _ _ (formed x agreed.1) (formed y agreed.2.1) agreed.2.2
          rwa [noEqual, assuming_bot] at equal)
        (fun x y agreed => ih _ only' (formed x agreed.1) (formed y agreed.2.1) agreed.2.2)
      rw [assumedSubtype_cons] at parts
      refine assumed_of_le (R := fun x y => x = a ∧ y = b) (le_assuming_of_step ?_) ⟨rfl, rfl⟩
      rintro x y ⟨rfl, rfl⟩
      exact parts

theorem subtypeWithin_no (truthful : c.oracle.Truthful g c.variance) (budget : Nat)
    (seen : List Hypothesis) (left : g.WellFormed a) (right : g.WellFormed b)
    (h : (c.subtypeWithin g budget seen (some a) (some b)).result = .ok false) :
    ¬ g.Subtype c.variance a b := by
  induction budget generalizing seen a b with
  | zero =>
    unfold subtypeWithin at h
    split at h
    next atOnce => exact subtypeAtOnce?_no truthful atOnce h
    · simp [Trial.fail] at h
  | succ rest ih =>
    unfold subtypeWithin at h
    split at h
    next atOnce => exact subtypeAtOnce?_no truthful atOnce h
    next undecided =>
      have formed (x : TypeId) (hx : x ∈ g.children a ++ g.children b) : g.WellFormed x :=
        (List.mem_append.1 hx).elim left.child right.child
      intro subtype
      refine Node.subtypeParts_no left.node right.node (subtypeAtOnce?_none undecided) h ?_ ?_
        subtype.parts
      · exact fun x hx y hy no => equalWithin_no truthful _ _ (left.child hx) (right.child hy) no
      · exact fun x hx y hy no => ih _ (formed x hx) (formed y hy) no

theorem equal_iff (truthful : c.oracle.Truthful g v) (left : g.WellFormed a) (right : g.WellFormed b)
    (h : (c.equal g (some a) (some b)).result = .ok r) : r = true ↔ g.Equal a b := by
  have nothing : assumedEqual [] = ⊥ := by funext x y; simp [assumedEqual]
  cases r with
  | true =>
    have yes := equalWithin_yes truthful _ _ left right h
    rw [nothing, assuming_bot] at yes
    exact ⟨fun _ => yes, fun _ => rfl⟩
  | false => simpa using equalWithin_no truthful _ _ left right h

theorem subtype_iff (truthful : c.oracle.Truthful g c.variance) (left : g.WellFormed a)
    (right : g.WellFormed b) (h : (c.subtype g (some a) (some b)).result = .ok r) :
    r = true ↔ g.Subtype c.variance a b := by
  have nothing : assumedSubtype [] = ⊥ := by funext x y; simp [assumedSubtype]
  cases r with
  | true =>
    have yes := subtypeWithin_yes truthful _ _ (by simp) left right h
    rw [nothing, assuming_bot] at yes
    exact ⟨fun _ => yes, fun _ => rfl⟩
  | false => simpa using subtypeWithin_no truthful _ _ left right h

/-- Without an oracle, every answer within the bound is the truth about the structural relations. -/
theorem decides_structural_relations (g : Graph) (c : Checker) (quiet : c.oracle = Oracle.silent)
    (left : g.WellFormed a) (right : g.WellFormed b) :
    (∀ r, (c.equal g (some a) (some b)).result = .ok r → (r = true ↔ g.Equal a b)) ∧
      ∀ r, (c.subtype g (some a) (some b)).result = .ok r → (r = true ↔ g.Subtype c.variance a b) := by
  have truthful : c.oracle.Truthful g c.variance := quiet ▸ Oracle.silent_truthful g c.variance
  exact ⟨fun r => equal_iff truthful left right, fun r => subtype_iff truthful left right⟩

/-- An object with a method that takes and returns such an object (6), the same type unrolled twice (8),
and a function that returns one (12). -/
def streams : Graph :=
  ⟨Graph.primitives.nodes ++ #[
    .object [⟨0, some 7, false⟩], .closure ⟨.method, [some 6], some 6, none⟩,
    .object [⟨0, some 9, false⟩], .closure ⟨.method, [some 10], some 10, none⟩,
    .object [⟨0, some 11, false⟩], .closure ⟨.method, [some 8], some 8, none⟩,
    .closure ⟨.function, [], some 8, none⟩]⟩

theorem streams_wellFormed (t : TypeId) (h : t ∈ [6, 7, 8, 9, 10, 11, 12]) : streams.WellFormed t :=
  .of_closed [6, 7, 8, 9, 10, 11, 12] (by decide) h

/-- A type equals its unrolling, and a function stands in for a method but not the other way. -/
theorem decides_streams :
    streams.Equal 6 8 ∧ streams.Subtype .contravariant 12 7 ∧ ¬ streams.Subtype .contravariant 7 12 := by
  have decides a b ha hb := decides_structural_relations streams ⟨50, .contravariant, Oracle.silent⟩ rfl
    (streams_wellFormed a ha) (streams_wellFormed b hb)
  refine ⟨?_, ?_, ?_⟩
  · exact ((decides 6 8 (by decide) (by decide)).1 true rfl).1 rfl
  · exact ((decides 12 7 (by decide) (by decide)).2 true rfl).1 rfl
  · exact fun h => Bool.false_ne_true (((decides 7 12 (by decide) (by decide)).2 false rfl).2 h)

end Checker

end Gradual
