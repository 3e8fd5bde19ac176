import Gradual.Proofs.Machine.Calls
import Gradual.Proofs.Machine.Frame

/-!
What a call with the untyped convention does to the arguments that its caller has pending on the stack. Typed
code pops as many arguments as its type declares and does not know how many were given, so the ones that were
not given are taken from the caller. Main statement: `callWith_args`.
-/
namespace Gradual

/-- A call of `fn` enters the typed code of `r`: `fn` is the closure itself, or a wrapper that exports it. -/
inductive Machine.Enters (m : Machine) (fn : Word) (r : Record) (code : Code) : Prop where
  | direct {ref : Ref} (known : fn.decode? = some (.closure ref)) (found : m.heap.get? ref = some r)
      (has_code : r.code? = some code) (typed : code.isUntyped = false)
  | exported {ref inside : Ref} {wrapper : Record} {t : TypeId} (known : fn.decode? = some (.closure ref))
      (found : m.heap.get? ref = some wrapper) (wraps : wrapper.code? = some (.exporting inside t))
      (inner : m.heap.get? inside = some r) (has_code : r.code? = some code)

namespace Run

variable {host : Host} {fuel : Nat} {m : Machine} {fn recv : Word} {args : List Word} {r : Record} {code : Code}
  {t : TypeId} {sig : Signature}

def LeavesStack (host : Host) (code : Code) : Prop :=
  ∀ fuel recv args m w m', invoke host fuel code recv args m = .ok w m' → m'.args = m.args

def FaultOfCoercion (f : Fault) : Prop := ∃ w t m m', coerce w t m = .error f m'

theorem ends_coerce_args (w : Word) (t : Child) :
    Ends (coerce w t) m (fun _ m' => m'.args = m.args) fun f _ => FaultOfCoercion f := by
  have keeps := (framed_coerce w t).keeps m
  unfold Ends at keeps ⊢
  cases ended : coerce w t m with
  | ok w' m' =>
    rw [ended] at keeps
    exact keeps.1
  | error f m' => exact ⟨w, t, m, m', ended⟩

theorem ends_popCoerced (ts : List Child) :
    Ends (popCoerced ts) m (fun _ m' => ts.length ≤ m.args.length ∧ m'.args = m.args.drop ts.length) fun f _ =>
      f = .violation .argumentUnderflow ∨ FaultOfCoercion f := by
  induction ts generalizing m with
  | nil => exact ⟨Nat.zero_le _, rfl⟩
  | cons t rest ih =>
    refine (ends_bind ..).2 (ends_popArg (fun w below stack => ?_) fun _ => .inl rfl)
    refine (ends_bind ..).2 ((ends_coerce_args w t).mono (fun w' m₁ same => ?_) fun _ _ fault => .inr fault)
    refine (ends_bind ..).2 (ih.mono (fun ws m₂ popped => ?_) fun _ _ fault => fault)
    obtain ⟨enough, left⟩ := popped
    rw [same] at enough left
    rw [stack]
    exact ⟨Nat.succ_le_succ enough, left⟩

theorem ends_popReceiver (sig : Signature) :
    Ends (popReceiver sig) m (fun _ m' => ∃ w, m.args = w :: m'.args) fun f _ =>
      f = .violation .argumentUnderflow ∨ FaultOfCoercion f := by
  refine (ends_bind ..).2 (ends_popArg (fun w below stack => ?_) fun _ => .inl rfl)
  cases sig.receiver with
  | none => exact ⟨w, stack⟩
  | some t =>
    refine (ends_coerce_args w (some t)).mono (fun w' m' same => ⟨w, ?_⟩) fun _ _ fault => .inr fault
    rw [stack, same]

/-- The receiver and the declared arguments are popped, and the code leaves the rest. If they are not there, what
fails is a pop or a coercion. -/
theorem ends_enterTyped (tag : r.tag = some t) (shape : m.types.graph.node t = .closure sig)
    (leaves : LeavesStack host code) :
    Ends (enterTyped host fuel r code) m
      (fun _ m' => sig.explicit.length < m.args.length ∧ m'.args = m.args.drop (sig.explicit.length + 1)) fun f _ =>
        m.args.length ≤ sig.explicit.length →
          f = .violation .argumentUnderflow ∨ FaultOfCoercion f ∨ f = .exhausted := by
  cases fuel with
  | zero => exact fun _ => .inr (.inr rfl)
  | succ fuel =>
    simp only [enterTyped, tag]
    refine (ends_bind ..).2 ((ends_signature shape).2 ?_)
    refine (ends_bind ..).2 ((ends_popReceiver sig).mono (fun recv m₁ popped => ?_)
      fun _ _ fault _ => fault.imp_right .inl)
    obtain ⟨w, stack⟩ := popped
    refine (ends_bind ..).2 ((ends_popCoerced sig.explicit).mono (fun args m₂ taken => ?_)
      fun _ _ fault _ => fault.imp_right .inl)
    obtain ⟨enough, left⟩ := taken
    rw [stack, List.length_cons]
    unfold Ends
    cases ended : invoke host fuel code recv args m₂ with
    | ok result m₃ => exact ⟨Nat.lt_succ_of_le enough, (leaves _ _ _ _ _ _ ended).trans left⟩
    | error f m₃ => exact fun short => absurd short (Nat.not_le.2 (Nat.lt_succ_of_le enough))

theorem ends_callable_closure {ref : Ref} (known : fn.decode? = some (.closure ref)) (found : m.heap.get? ref = some r)
    (has_code : r.code? = some code) {ok : Ref × Record × Code → Machine → Prop} {err : Fault → Machine → Prop} :
    Ends (callable fn) m ok err ↔ ok (ref, r, code) m := by
  simp [callable, ends_decode known, ends_recordAt found, has_code]

theorem ends_callUntyped_enters (enters : m.Enters fn r code) (tag : r.tag = some t)
    (shape : m.types.graph.node t = .closure sig) (leaves : LeavesStack host code) :
    Ends (callUntyped host fuel fn) m
      (fun _ m' => sig.explicit.length < m.args.length ∧ m'.args = m.args.drop (sig.explicit.length + 1)) fun f _ =>
        m.args.length ≤ sig.explicit.length →
          f = .violation .argumentUnderflow ∨ FaultOfCoercion f ∨ f = .exhausted := by
  cases enters with
  | direct known found has_code typed =>
    refine (ends_bind ..).2 ((ends_callable_closure known found has_code).2 ?_)
    simp only [typed, Bool.false_eq_true, if_false, ends_bind]
    exact (ends_enterTyped tag shape leaves).mono (fun _ _ done => done) fun _ _ fault => fault
  | @exported ref inside wrapper u known found wraps inner has_code =>
    refine (ends_bind ..).2 ((ends_callable_closure known found wraps).2 ?_)
    simp only [show (Code.exporting inside u).isUntyped = true from rfl, if_true, ends_bind]
    cases fuel with
    | zero => exact fun _ => .inr (.inr rfl)
    | succ fuel =>
      refine (ends_modify _).2 ?_
      simp only [runUntyped, ends_bind]
      let m₁ : Machine := { m with lastReturn := Word.undefined }
      refine (ends_wrappedCode (m := m₁) inner has_code).2 ?_
      exact (ends_enterTyped (m := m₁) tag shape leaves).mono (fun _ _ done => done) fun _ _ fault => fault

theorem ends_forM_pushArg (ws : List Word) :
    Ends (ws.forM pushArg) m (fun _ m' => m' = { m with args := ws.reverse ++ m.args }) fun f _ =>
      f = .violation (.argumentOverflow m.limits.argStack) := by
  induction ws generalizing m with
  | nil => exact rfl
  | cons w ws ih =>
    change Ends (pushArg w >>= fun _ => ws.forM pushArg) m _ _
    refine (ends_bind ..).2 (ends_pushArg (ih.mono (fun _ m' pushed => ?_) fun _ _ fault => fault) rfl)
    rw [pushed, List.reverse_cons, List.append_assoc, List.singleton_append]

theorem ends_pushCall (recv : Word) (args : List Word) :
    Ends (pushCall recv args) m (fun _ m' => m' = { m with args := recv :: (args ++ m.args) }) fun f _ =>
      f = .violation (.argumentOverflow m.limits.argStack) := by
  refine (ends_bind ..).2 ((ends_forM_pushArg args.reverse).mono (fun _ m₁ pushed => ?_) fun _ _ fault => fault)
  rw [List.reverse_reverse] at pushed
  subst pushed
  exact ends_pushArg rfl rfl

/-- Of the arguments and those pending below them, `n` are taken and what is left of the arguments is dropped. -/
theorem drop_rest (pending : List Word) (n : Nat) :
    ((args ++ pending).drop n).drop (((args ++ pending).drop n).length - pending.length) =
      pending.drop (n - args.length) := by
  rw [List.drop_drop, List.length_drop, List.length_append, List.drop_append]
  have past : args.length ≤ n + (args.length + pending.length - n - pending.length) := by omega
  rw [List.drop_eq_nil_of_le past, List.nil_append]
  congr 1
  omega

theorem ends_callWith (enters : m.Enters fn r code) (tag : r.tag = some t)
    (shape : m.types.graph.node t = .closure sig) (leaves : LeavesStack host code) (fuel : Nat) (recv : Word)
    (args : List Word) :
    Ends (callWith host fuel fn recv args) m
      (fun _ m' => sig.explicit.length ≤ args.length + m.args.length ∧
        m'.args = m.args.drop (sig.explicit.length - args.length)) fun f _ =>
      args.length + m.args.length < sig.explicit.length →
        f = .violation (.argumentOverflow m.limits.argStack) ∨ f = .violation .argumentUnderflow ∨
          FaultOfCoercion f ∨ f = .exhausted := by
  refine (ends_bind ..).2 ((ends_get).2 ?_)
  refine (ends_bind ..).2 ((ends_pushCall recv args).mono (fun _ m₁ pushed => ?_) fun _ _ fault _ => .inl fault)
  have enters₁ : m₁.Enters fn r code := by
    subst pushed
    cases enters with
    | direct known found has_code typed => exact .direct known found has_code typed
    | exported known found wraps inner has_code => exact .exported known found wraps inner has_code
  have shape₁ : m₁.types.graph.node t = .closure sig := by rw [pushed]; exact shape
  have stack : m₁.args = recv :: (args ++ m.args) := by rw [pushed]
  refine (ends_bind ..).2 ((ends_callUntyped_enters enters₁ tag shape₁ leaves).mono (fun _ m₂ called => ?_)
    fun f _ fault short => .inr (fault ?_))
  · obtain ⟨enough, left⟩ := called
    rw [stack, List.length_cons, List.length_append] at enough
    rw [stack, List.drop_succ_cons] at left
    refine ⟨by omega, ?_⟩
    change m₂.args.drop (m₂.args.length - m.args.length) = _
    rw [left, drop_rest]
  · rw [stack, List.length_cons, List.length_append]
    omega

/-- A call that returns has taken from its caller as many pending arguments as it was given too few. So the
caller's arguments are all still there if and only if enough were given; and where the pending ones cannot make
up for those that are missing, the call does not return. -/
theorem callWith_args (enters : m.Enters fn r code) (tag : r.tag = some t)
    (shape : m.types.graph.node t = .closure sig) (leaves : LeavesStack host code) (fuel : Nat) (recv : Word)
    (args : List Word) :
    (∀ w m', callWith host fuel fn recv args m = .ok w m' →
      m'.args = m.args.drop (sig.explicit.length - args.length) ∧
        (m'.args = m.args ↔ sig.explicit.length ≤ args.length)) ∧
    (args.length + m.args.length < sig.explicit.length →
      ∃ f m', callWith host fuel fn recv args m = .error f m' ∧
        (f = .violation (.argumentOverflow m.limits.argStack) ∨ f = .violation .argumentUnderflow ∨
          FaultOfCoercion f ∨ f = .exhausted)) := by
  have outcome := ends_callWith enters tag shape leaves fuel recv args
  unfold Ends at outcome
  constructor
  · intro w m' returned
    rw [returned] at outcome
    obtain ⟨enough, left⟩ := outcome
    refine ⟨left, fun same => ?_, fun given => ?_⟩
    · have length := congrArg List.length (same.symm.trans left)
      rw [List.length_drop] at length
      omega
    · rw [left, Nat.sub_eq_zero_of_le given, List.drop_zero]
  · intro short
    cases ended : callWith host fuel fn recv args m with
    | ok w m' =>
      rw [ended] at outcome
      exact absurd outcome.1 (Nat.not_le.2 short)
    | error f m' =>
      rw [ended] at outcome
      exact ⟨f, m', rfl, outcome short⟩

def firstArgument : Host := ⟨fun _ _ _ args => pure (args.headD Word.undefined), fun _ _ => pure ()⟩

/-- A body that only computes its result leaves the stack alone. -/
theorem leavesStack_pure (result : Body → Option (List Word) → Word → List Word → Word)
    (untyped : Body → Option (List Word) → Run Unit) (arity : Nat) (body : Body) (env : Option (List Word)) :
    LeavesStack ⟨fun b e recv args => pure (result b e recv args), untyped⟩ (.typed arity body env) := by
  intro fuel recv args m w m' ended
  cases fuel with
  | zero => cases ended
  | succ fuel =>
    simp only [invoke] at ended
    split at ended
    · cases ended
    · cases ended
      rfl

theorem firstArgument_leavesStack (arity : Nat) (body : Body) (env : Option (List Word)) :
    LeavesStack firstArgument (.typed arity body env) :=
  leavesStack_pure _ _ arity body env

/-- The type `fn(int, int) int` (6). -/
def binaryTypes : TypeStore :=
  ⟨⟨Graph.primitives.nodes ++ #[.closure ⟨.function, [some 0, some 0], some 0, none⟩]⟩, ⟨#[]⟩⟩

/-- A typed closure of two arguments is exported, and two arguments are pending on the stack. -/
def pending : Machine :=
  (pushArg (Word.ofInt 7)).after <| (pushArg (Word.ofInt 9)).after <| (exportClosure (Word.closureRef 1)).after <|
    (newClosure (some 6) (.typed 2) default none).after <|
      Machine.initial (fun _ => 0) Limits.default Oracle.silent binaryTypes

theorem pending_reachable : pending.Reachable := by
  have proper : binaryTypes.Proper 6 := .of_closed [0, 6] (by decide) (by decide)
  refine .step (.step (.step (.step (.initial _ _ _ (by decide)) (.newClosure ?_ _ _ _)) (.exportClosure ?_))
    (.pushArg _)) (.pushArg _)
  · intro u same
    cases same
    exact proper
  · exact ⟨_, rfl, fun _ same => by cases same; exact ⟨_, rfl, rfl⟩⟩

/-- Called with one argument, the wrapper takes the other one from its caller. -/
theorem callWith_args_pending :
    pending.Reachable ∧ pending.args = [Word.ofInt 7, Word.ofInt 9] ∧
    ∃ m', callWith firstArgument 3 (Word.closureRef 2) Word.undefined [Word.ofInt 5] pending =
        .ok (Word.ofInt 5) m' ∧ m'.args = [Word.ofInt 9] ∧ m'.args ≠ pending.args := by
  have returns : (match callWith firstArgument 3 (Word.closureRef 2) Word.undefined [Word.ofInt 5] pending with
      | .ok w _ => decide (w = Word.ofInt 5)
      | .error _ _ => false) = true := by decide +kernel
  have enters : pending.Enters (Word.closureRef 2) _ (.typed 2 default none) := .exported rfl rfl rfl rfl rfl
  have outcome := callWith_args enters rfl rfl (firstArgument_leavesStack 2 default none) 3 Word.undefined
    [Word.ofInt 5]
  refine ⟨pending_reachable, rfl, ?_⟩
  split at returns
  next w m' ended =>
    obtain ⟨left, same⟩ := outcome.1 w m' ended
    rw [of_decide_eq_true returns] at ended
    exact ⟨m', ended, left, fun kept => absurd (same.1 kept) (by decide)⟩
  next => cases returns

end Run

end Gradual
