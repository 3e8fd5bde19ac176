import Gradual.Machine.Call
import Gradual.Proofs.Coercion.Conformance
import Gradual.Proofs.Machine.Reachable

/-!
Calls with as many arguments as a closure type declares. Subtyping of closure types keeps the number of arguments after
the receiver, also where a function stands in for a method, and every closure has code for as many arguments as its tag
declares. So whatever closure a coercion to a closure type returns, a call that gives it the declared arguments enters
its code. Main statement: `Machine.Reachable.coerce_arity`.
-/
namespace Gradual

/-- A function that stands in for a method has one argument less, and no receiver to leave out. -/
theorem Signature.Answers.explicitCount_eq {sub sup : Signature} {wanted : List Child}
    (answers : sub.Answers sup wanted) (length : sub.args.length = wanted.length) :
    sub.explicitCount = sup.explicitCount := by
  rcases answers with ⟨code, rfl⟩ | ⟨function, method, recv, args⟩
  · simp [explicitCount, isFunction, code, length]
  · simp [explicitCount, isFunction, function, method, args, length]

theorem Graph.Subtype.explicitCount_eq {g : Graph} {v : Variance} {a b : TypeId} {s t : Signature}
    (sub : g.Subtype v a b) (left : g.node a = .closure s) (right : g.node b = .closure t) :
    s.explicitCount = t.explicitCount := by
  have parts := sub.parts
  rw [left, right] at parts
  obtain ⟨wanted, answers, _, args, _⟩ := parts
  exact answers.explicitCount_eq args.length_eq

/-- Given as many arguments as its typed code takes, a closure that is called enters that code. -/
theorem Run.call_eq_invoke {m : Machine} {fn : Word} {ref : Ref} {r : Record} {code : Code} {args : List Word}
    (known : fn.decode? = some (.closure ref)) (found : m.heap.get? ref = some r) (has_code : r.code? = some code)
    (arity : code.arity? = some args.length) (host : Host) (fuel : Nat) (recv : Word) :
    call host fuel fn recv args m = invoke host fuel code recv args m := by
  have entered : callable fn m = .ok (ref, r, code) m := by
    apply Ends.eq_ok
    simp [callable, ends_decode known, ends_recordAt found, has_code]
  simp only [call, bind, EStateM.bind, entered, callRecord, arity, ne_eq, not_true_eq_false, if_false]

namespace Machine

variable {m m' : Machine} {w : Word} {t : TypeId} {sig : Signature} {ref : Ref}

/-- Neither code nor tag of a closure ever changes. -/
theorem Persists.closure (persists : m.Persists m') {r : Record} {code : Code} (found : m.heap.get? ref = some r)
    (has_code : r.code? = some code) : ∃ r', m'.heap.get? ref = some r' ∧ r'.code? = some code ∧ r'.tag = r.tag := by
  obtain ⟨r', found', keeps⟩ := persists.records found
  obtain ⟨body, tag⟩ := keeps.closure (Record.isCallable_iff.2 ⟨code, has_code⟩)
  exact ⟨r', found', (Record.code?_congr body).trans has_code, tag⟩

/-- The closures among the values of a closure type have typed code for the declared arguments. -/
theorem Reachable.closure_arity (reachable : m.Reachable) (genuine : m.heap.Genuine w) (fits : m.Fits w t)
    (shape : m.types.graph.node t = .closure sig) (known : w.decode? = some (.closure ref)) :
    ∃ r code, ∃ arity : Nat, m.heap.get? ref = some r ∧ r.code? = some code ∧ code.arity? = some arity ∧
      sig.explicitCount = arity := by
  obtain ⟨r, found, callable⟩ := genuine.closure known
  obtain ⟨code, has_code⟩ := Record.isCallable_iff.1 callable
  simp only [Fits, shape, known, Option.some.injEq, reduceCtorEq, false_or, Value.closure.injEq] at fits
  obtain ⟨_, rfl, _, tag, found', tagged, sub⟩ := fits
  cases found.symm.trans found'
  obtain ⟨own, _, own_shape, arity, count, takes⟩ := reachable.agrees found has_code tag tagged
  exact ⟨r, code, arity, found, has_code, takes, (sub.explicitCount_eq own_shape shape).symm.trans count⟩

/-- A closure that a coercion to a closure type returns has typed code for the declared arguments, and a call with that
many, then or later, enters the code: it is not the call that fails for their number. The type is well formed, and the
ids of properties in it are issued and not for the empty name. The checker relates no closure types that are well formed
and declare different numbers of arguments. -/
theorem Reachable.coerce_arity (reachable : m.Reachable) (quiet : m.oracle = Oracle.silent) (proper : m.types.Proper t)
    (shape : m.types.graph.node t = .closure sig) :
    (∀ v w m' ref, m.heap.Genuine v → Run.coerce v (some t) m = .ok w m' → w.decode? = some (.closure ref) →
      ∃ r code, ∃ arity : Nat, m'.heap.get? ref = some r ∧ r.code? = some code ∧ code.isUntyped = false ∧
        code.arity? = some arity ∧ sig.explicitCount = arity ∧
        ∀ later, m'.Leads later → ∀ host fuel recv args, sig.explicitCount = (args : List Word).length →
          Run.call host fuel w recv args later = Run.invoke host fuel code recv args later) ∧
    ∀ (c : Checker) (a b : TypeId) (s s' : Signature), c.oracle = Oracle.silent → m.types.graph.WellFormed a →
      m.types.graph.WellFormed b → m.types.graph.node a = .closure s → m.types.graph.node b = .closure s' →
      (c.subtype m.types.graph (some a) (some b)).result = .ok true → s.explicitCount = s'.explicitCount := by
  constructor
  · intro v w m' ref genuine ended known
    have coerced := (Run.coerce_faithful reachable.valid genuine proper).of_ok ended
    have reachable' : m'.Reachable := by
      have step := Reachable.step reachable (.coerce genuine proper)
      rwa [show (Run.coerce v (some t)).after m = m' by simp [Run.after, ended]] at step
    have fits : m'.Fits w t := coerced.fits (quiet ▸ Oracle.silent_truthful _ _)
    have shape' : m'.types.graph.node t = .closure sig := by rw [coerced.evolves.types, shape]
    obtain ⟨r, code, arity, found, has_code, takes, count⟩ :=
      reachable'.closure_arity (coerced.genuine genuine) fits shape' known
    refine ⟨r, code, arity, found, has_code, by simp [Code.isUntyped, takes], takes, count, ?_⟩
    intro later leads host fuel recv args given
    obtain ⟨r', found', has_code', _⟩ := (leads.persists reachable'.valid).2.closure found has_code
    have same : arity = args.length := by
      rw [count] at given
      exact_mod_cast given
    exact Run.call_eq_invoke known found' has_code' (same ▸ takes) host fuel recv
  · intro c a b s s' silent left right left_shape right_shape yes
    have truthful : c.oracle.Truthful m.types.graph c.variance := silent ▸ Oracle.silent_truthful _ _
    exact ((Checker.subtype_iff truthful left right yes).1 rfl).explicitCount_eq left_shape right_shape

/-- The types `fn(int) int` (6) and that of a method with one argument on any receiver (7). -/
def unaryTypes : TypeStore :=
  ⟨⟨Graph.primitives.nodes ++ #[.closure ⟨.function, [some 0], some 0, none⟩,
    .closure ⟨.method, [some 5, some 0], some 0, none⟩]⟩, ⟨#[]⟩⟩

def unary : Machine :=
  (Run.newUntyped default none).after <| (Run.newClosure (some 6) (.typed 1) default none).after <|
    Machine.initial (fun _ => 0) Limits.default Oracle.silent unaryTypes

theorem unary_proper (t : TypeId) (member : t ∈ [0, 5, 6, 7]) : unary.types.Proper t :=
  .of_closed [0, 5, 6, 7] (by decide) member

theorem unary_reachable : unary.Reachable := by
  refine .step (.step (.initial _ _ _ (by decide)) (.newClosure ?_ _ _ _)) (.newUntyped _ _)
  intro u same
  cases same
  exact unary_proper 6 (by decide)

theorem unary_genuine (ref : Ref) (member : ref ∈ [1, 2]) : unary.heap.Genuine (Word.closureRef ref) := by
  obtain rfl | rfl : ref = 1 ∨ ref = 2 := by simpa using member
  all_goals exact ⟨_, rfl, fun _ same => by cases same; exact ⟨_, rfl, rfl⟩⟩

/-- The function stands in for a method, and the untyped closure is wrapped. -/
theorem coerce_arity_unary :
    ∃ m₁ m₂, Run.coerce (Word.closureRef 1) (some 7) unary = .ok (Word.closureRef 1) m₁ ∧
      Run.coerce (Word.closureRef 2) (some 7) unary = .ok (Word.closureRef 3) m₂ ∧
      ∀ host fuel recv x,
        Run.call host fuel (Word.closureRef 1) recv [x] m₁ = Run.invoke host fuel (.typed 1 default none) recv [x] m₁ ∧
        Run.call host fuel (Word.closureRef 3) recv [x] m₂ = Run.invoke host fuel (.importing 1 2 7) recv [x] m₂ := by
  have typed := (unary_reachable.coerce_arity rfl (unary_proper 7 (by decide)) rfl).1
  obtain ⟨r₁, code₁, _, found₁, has_code₁, _, _, _, enters₁⟩ :=
    typed _ _ _ 1 (unary_genuine 1 (by decide)) rfl rfl
  obtain ⟨r₂, code₂, _, found₂, has_code₂, _, _, _, enters₂⟩ :=
    typed _ _ _ 3 (unary_genuine 2 (by decide)) rfl rfl
  cases found₁
  cases found₂
  cases has_code₁
  cases has_code₂
  exact ⟨_, _, rfl, rfl, fun host fuel recv x =>
    ⟨enters₁ _ .refl host fuel recv [x] rfl, enters₂ _ .refl host fuel recv [x] rfl⟩⟩

end Machine

end Gradual
