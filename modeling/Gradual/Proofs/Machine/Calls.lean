import Gradual.Proofs.Machine.Sound

/-!
Calls are safe if the bodies of closures are. Typed code gets as many arguments as it takes, because its tag
says how many are popped; untyped code is never run with the typed convention nor the other way round,
because wrappers have a closure of the other sort inside. Main statements: `safe_call`, `safe_callUntyped`,
`safe_callWith` and `safe_construct`, for hosts of any kind.
-/
namespace Gradual

namespace TypeStore.Proper

variable {s : TypeStore} {t : TypeId} {sig : Signature}

theorem returned (proper : s.Proper t) (shape : s.graph.node t = .closure sig) (u : TypeId) (ret : sig.ret = some u) :
    s.Proper u := by
  refine proper.child ?_
  simp [Graph.children, shape, Node.children, ret]

theorem argument (proper : s.Proper t) (shape : s.graph.node t = .closure sig) (u : TypeId) (arg : some u ∈ sig.args) :
    s.Proper u := by
  refine proper.child ?_
  simp [Graph.children, shape, Node.children, arg]

theorem explicit (proper : s.Proper t) (shape : s.graph.node t = .closure sig) (u : TypeId)
    (arg : some u ∈ sig.explicit) : s.Proper u := by
  refine proper.argument shape u ?_
  unfold Signature.explicit at arg
  split at arg
  · exact arg
  · exact List.mem_of_mem_drop arg

theorem receiver (proper : s.Proper t) (shape : s.graph.node t = .closure sig) (u : TypeId)
    (recv : sig.receiver = some u) : s.Proper u := by
  refine proper.argument shape u ?_
  unfold Signature.receiver at recv
  split at recv
  · cases recv
  · exact List.mem_of_mem_head? (Option.join_eq_some_iff.1 recv)

end TypeStore.Proper

namespace Machine

variable {Runs : Body → Prop} {m : Machine} {t : TypeId} {code : Code}

/-- Code under a tag takes as many arguments as the tag says. -/
theorem Coded.arity (coded : m.Coded Runs (some t) code) :
    ∃ sig n, m.types.Proper t ∧ m.types.graph.node t = .closure sig ∧ sig.explicitCount = (n : Nat) ∧
      code.arity? = some n := by
  cases coded with
  | typed proper shape count => exact ⟨_, _, proper, shape, count, rfl⟩
  | importing proper imports =>
    obtain ⟨sig, r, shape, count, _⟩ := imports
    exact ⟨sig, _, proper, shape, count, rfl⟩

/-- The closure inside a wrapper has code that goes with its tag. -/
theorem Sound.inside {S : Setting} (sound : m.Sound S) {ref : Ref} {r : Record} (found : m.heap.get? ref = some r)
    (callable : r.kind.isCallable) : ∃ code, r.code? = some code ∧ m.Coded S.Runs r.tag code := by
  obtain ⟨code, has_code⟩ := Record.isCallable_iff.1 callable
  exact ⟨code, has_code, sound.closures found has_code⟩

end Machine

namespace Run

variable {S : Setting} {host : Host} {fuel : Nat} {m : Machine} {fn recv : Word} {args : List Word} {code : Code}

structure HostSafe (S : Setting) (host : Host) (m : Machine) : Prop where
  typed : ∀ {m' : Machine} {body : Body} {env : Option (List Word)} {recv : Word} {args : List Word}, m.Grows m' →
    m'.Sound S → S.Runs body → (∀ w ∈ env.getD [], m'.heap.Genuine w) → m'.heap.Genuine recv →
    (∀ w ∈ args, m'.heap.Genuine w) → Safe S (host.typed body env recv args) m' fun w m'' => m''.heap.Genuine w
  untyped : ∀ {m' : Machine} {body : Body} {env : Option (List Word)}, m.Grows m' → m'.Sound S → S.Runs body →
    (∀ w ∈ env.getD [], m'.heap.Genuine w) → Safe S (host.untyped body env) m' fun _ _ => True

theorem HostSafe.grows {m' : Machine} (bodies : HostSafe S host m) (grows : m.Grows m') : HostSafe S host m' :=
  ⟨fun grows' => bodies.typed (grows.trans grows'), fun grows' => bodies.untyped (grows.trans grows')⟩

theorem ends_signature {ok : Signature → Machine → Prop} {err : Fault → Machine → Prop} {t : TypeId} {sig : Signature}
    (shape : m.types.graph.node t = .closure sig) : Ends (signature t) m ok err ↔ ok sig m := by
  simp [signature, shape, Node.signature?]

theorem ends_wrappedCode {ok : Record × Code → Machine → Prop} {err : Fault → Machine → Prop} {ref : Ref} {r : Record}
    (found : m.heap.get? ref = some r) (has_code : r.code? = some code) :
    Ends (wrappedCode ref) m ok err ↔ ok (r, code) m := by
  simp [wrappedCode, ends_recordAt found, has_code]

theorem safe_popCoerced (sound : m.Sound S) {ts : List Child} (proper : ∀ u, some u ∈ ts → m.types.Proper u) :
    Safe S (popCoerced ts) m fun ws m' => ws.length = ts.length ∧ ∀ w ∈ ws, m'.heap.Genuine w := by
  induction ts generalizing m with
  | nil => exact .pure sound ⟨rfl, List.forall_mem_nil _⟩
  | cons t rest ih =>
    refine (safe_popArg sound).bind fun w m₁ grows₁ sound₁ genuine₁ => ?_
    refine (safe_coerce sound₁ genuine₁ fun u same => ?_).bind fun w m₂ grows₂ sound₂ genuine₂ => ?_
    · exact grows₁.proper (proper u (same ▸ List.mem_cons_self))
    refine (ih sound₂ fun u member => ?_).bind fun ws m₃ grows₃ sound₃ ⟨length, genuine₃⟩ => ?_
    · exact (grows₁.trans grows₂).proper (proper u (List.mem_cons_of_mem _ member))
    exact .pure sound₃ ⟨by simp [length], List.forall_mem_cons.2 ⟨grows₃.genuine genuine₂, genuine₃⟩⟩

theorem safe_popReceiver {sig : Signature} (sound : m.Sound S)
    (proper : ∀ u, sig.receiver = some u → m.types.Proper u) :
    Safe S (popReceiver sig) m fun w m' => m'.heap.Genuine w := by
  refine (safe_popArg sound).bind fun w m' grows sound' genuine => ?_
  cases recv : sig.receiver with
  | none => exact .pure sound' genuine
  | some t =>
    refine safe_coerce sound' genuine fun u same => grows.proper (proper u ?_)
    cases same
    exact recv

/-- Calls are safe while wrappers are nested less deep than `fuel`. -/
structure CallsSafe (S : Setting) (host : Host) (fuel : Nat) : Prop where
  invoke : ∀ {m t code recv args}, HostSafe S host m → m.Sound S → m.Coded S.Runs (some t) code →
    code.arity? = some args.length → m.heap.Genuine recv → (∀ w ∈ args, m.heap.Genuine w) →
    Safe S (invoke host fuel code recv args) m fun w m' => m'.heap.Genuine w
  runUntyped : ∀ {m code}, HostSafe S host m → m.Sound S → m.Coded S.Runs none code →
    Safe S (runUntyped host fuel code) m fun _ _ => True
  callOnStack : ∀ {m code recv args}, HostSafe S host m → m.Sound S → m.Coded S.Runs none code →
    m.heap.Genuine recv → (∀ w ∈ args, m.heap.Genuine w) →
    Safe S (callOnStack host fuel code recv args) m fun w m' => m'.heap.Genuine w
  enterTyped : ∀ {m t r code}, HostSafe S host m → m.Sound S → r.tag = some t → m.Coded S.Runs (some t) code →
    Safe S (enterTyped host fuel r code) m fun w m' => m'.heap.Genuine w

theorem invoke_safe (calls : CallsSafe S host fuel) {t : TypeId} (bodies : HostSafe S host m) (sound : m.Sound S)
    (coded : m.Coded S.Runs (some t) code) (arity : code.arity? = some args.length) (receiver : m.heap.Genuine recv)
    (genuine : ∀ w ∈ args, m.heap.Genuine w) :
    Safe S (invoke host (fuel + 1) code recv args) m fun w m' => m'.heap.Genuine w := by
  cases coded with
  | typed proper shape count runs captured =>
    cases arity
    simp only [invoke, Nat.lt_irrefl, if_false]
    exact bodies.typed (.refl sound.valid) sound runs captured receiver genuine
  | importing proper imports =>
    obtain ⟨sig, r, shape, count, found, callable, untagged⟩ := imports
    obtain ⟨inner, has_code, inner_coded⟩ := sound.inside found callable
    rw [untagged] at inner_coded
    cases arity
    simp only [invoke, Nat.lt_irrefl, if_false]
    refine (ends_bind ..).2 ((ends_wrappedCode found has_code).2 ?_)
    refine (calls.callOnStack bodies sound inner_coded receiver genuine).bind fun w m' grows sound' genuine' => ?_
    refine (ends_bind ..).2 ((ends_signature ((grows.types.nodes _ proper).trans shape)).2 ?_)
    exact safe_coerce sound' genuine' fun u ret => grows.proper (proper.returned shape u ret)

theorem runUntyped_safe (calls : CallsSafe S host fuel) (bodies : HostSafe S host m) (sound : m.Sound S)
    (coded : m.Coded S.Runs none code) : Safe S (runUntyped host (fuel + 1) code) m fun _ _ => True := by
  cases coded with
  | untyped runs captured => exact bodies.untyped (.refl sound.valid) sound runs captured
  | exporting found callable tag =>
    obtain ⟨inner, has_code, inner_coded⟩ := sound.inside found callable
    rw [tag] at inner_coded
    refine (ends_bind ..).2 ((ends_wrappedCode found has_code).2 ?_)
    refine (calls.enterTyped bodies sound tag inner_coded).bind fun w m' grows sound' genuine => ?_
    exact safe_setReturn sound' genuine

theorem callOnStack_safe (calls : CallsSafe S host fuel) (bodies : HostSafe S host m) (sound : m.Sound S)
    (coded : m.Coded S.Runs none code) (receiver : m.heap.Genuine recv) (genuine : ∀ w ∈ args, m.heap.Genuine w) :
    Safe S (callOnStack host (fuel + 1) code recv args) m fun w m' => m'.heap.Genuine w := by
  refine (ends_bind ..).2 ?_
  refine (safe_pushCall sound receiver genuine).bind fun _ m₁ grows₁ sound₁ _ => ?_
  refine (safe_setReturn sound₁ Heap.genuine_undefined).bind fun _ m₂ grows₂ sound₂ _ => ?_
  have grows := grows₁.trans grows₂
  refine (calls.runUntyped (bodies.grows grows) sound₂ (coded.grows grows)).bind fun _ m₃ grows₃ sound₃ _ => ?_
  refine (safe_dropArgs sound₃ _).bind fun _ m₄ grows₄ sound₄ _ => ?_
  exact ⟨⟨.refl sound₄.valid, sound₄⟩, sound₄.lastReturn⟩

/-- As many arguments are popped as the code takes, since the tag says both. -/
theorem enterTyped_safe (calls : CallsSafe S host fuel) {t : TypeId} {r : Record} (bodies : HostSafe S host m)
    (sound : m.Sound S) (tag : r.tag = some t) (coded : m.Coded S.Runs (some t) code) :
    Safe S (enterTyped host (fuel + 1) r code) m fun w m' => m'.heap.Genuine w := by
  obtain ⟨sig, n, proper, shape, count, arity⟩ := coded.arity
  have formed := proper.wellFormed.node
  rw [shape] at formed
  simp only [enterTyped, tag]
  refine (ends_bind ..).2 ((ends_signature shape).2 ?_)
  refine (safe_popReceiver sound (proper.receiver shape)).bind fun recv m₁ grows₁ sound₁ receiver => ?_
  refine (safe_popCoerced sound₁ fun u arg => grows₁.proper (proper.explicit shape u arg)).bind
    fun args m₂ grows₂ sound₂ ⟨length, genuine⟩ => ?_
  have grows := grows₁.trans grows₂
  refine calls.invoke (bodies.grows grows) sound₂ (coded.grows grows) ?_ (grows₂.genuine receiver) genuine
  have enough := formed.length_explicit
  rw [arity, length]
  congr 1
  omega

theorem callsSafe (S : Setting) (host : Host) (fuel : Nat) : CallsSafe S host fuel := by
  induction fuel with
  | zero =>
    constructor
    · intro m t code recv args bodies sound _ _ _ _
      exact .throw sound trivial
    · intro m code bodies sound _
      exact .throw sound trivial
    · intro m code recv args bodies sound _ _ _
      exact .throw sound trivial
    · intro m t r code bodies sound _ _
      exact .throw sound trivial
  | succ fuel ih => exact ⟨invoke_safe ih, runUntyped_safe ih, callOnStack_safe ih, enterTyped_safe ih⟩

theorem safe_callable (sound : m.Sound S) (genuine : m.heap.Genuine fn) : Safe S (callable fn) m fun x m' =>
    m'.heap.get? x.1 = some x.2.1 ∧ m'.Coded S.Runs x.2.1.tag x.2.2 :=
  ends_callable genuine
    (fun _ _ _ found has_code => ⟨⟨.refl sound.valid, sound⟩, found, sound.closures found has_code⟩)
    fun _ => ⟨trivial, sound.flagged⟩

theorem safe_describe {α : Type} {ok : α → Machine → Prop} {next : String → Run α} {w : Word}
    (genuine : m.heap.Genuine w) (rest : ∀ text, Safe S (next text) m ok) : Safe S (describe w >>= next) m ok :=
  (ends_bind ..).2 (ends_describe genuine rest)

theorem safe_callRecord {ref : Ref} {r : Record} (bodies : HostSafe S host m) (sound : m.Sound S)
    (callee : m.heap.Genuine (r.word ref)) (coded : m.Coded S.Runs r.tag code) (receiver : m.heap.Genuine recv)
    (genuine : ∀ w ∈ args, m.heap.Genuine w) :
    Safe S (callRecord host fuel ref r code recv args) m fun w m' => m'.heap.Genuine w := by
  have calls := callsSafe S host fuel
  unfold callRecord
  cases tag : r.tag with
  | none =>
    rw [tag] at coded
    have untyped : code.arity? = none := by cases coded <;> rfl
    rw [untyped]
    exact calls.callOnStack bodies sound coded receiver genuine
  | some t =>
    rw [tag] at coded
    obtain ⟨_, n, _, _, _, arity⟩ := coded.arity
    simp only [arity]
    split
    · exact safe_describe callee fun _ => .violate sound _
    next enough =>
      exact calls.invoke bodies sound coded (arity.trans (congrArg some (not_not.1 enough).symm)) receiver genuine

theorem safe_call (bodies : HostSafe S host m) (sound : m.Sound S) (callee : m.heap.Genuine fn)
    (receiver : m.heap.Genuine recv) (genuine : ∀ w ∈ args, m.heap.Genuine w) :
    Safe S (call host fuel fn recv args) m fun w m' => m'.heap.Genuine w := by
  refine (safe_callable sound callee).bind fun (ref, r, code) m' grows sound' ⟨found, coded⟩ => ?_
  exact safe_callRecord (bodies.grows grows) sound' (sound'.valid.word_genuine found) coded (grows.genuine receiver)
    (grows.allGenuine genuine)

theorem safe_callUntyped (bodies : HostSafe S host m) (sound : m.Sound S) (callee : m.heap.Genuine fn) :
    Safe S (callUntyped host fuel fn) m fun _ _ => True := by
  have calls := callsSafe S host fuel
  refine (safe_callable sound callee).bind fun (ref, r, code) m₁ grows₁ sound₁ ⟨found, coded⟩ => ?_
  dsimp only at coded ⊢
  cases tag : r.tag with
  | none =>
    rw [tag] at coded
    have untyped : code.isUntyped = true := by cases coded <;> rfl
    rw [if_pos untyped]
    refine (safe_setReturn sound₁ Heap.genuine_undefined).bind fun _ m₂ grows₂ sound₂ _ => ?_
    exact calls.runUntyped (bodies.grows (grows₁.trans grows₂)) sound₂ (coded.grows grows₂)
  | some t =>
    rw [tag] at coded
    have typed : ¬ code.isUntyped = true := by cases coded <;> exact Bool.false_ne_true
    rw [if_neg typed]
    refine (calls.enterTyped (bodies.grows grows₁) sound₁ tag coded).bind fun w m₂ grows₂ sound₂ genuine => ?_
    exact safe_setReturn sound₂ genuine

theorem safe_callWith (bodies : HostSafe S host m) (sound : m.Sound S) (callee : m.heap.Genuine fn)
    (receiver : m.heap.Genuine recv) (genuine : ∀ w ∈ args, m.heap.Genuine w) :
    Safe S (callWith host fuel fn recv args) m fun w m' => m'.heap.Genuine w := by
  refine (ends_bind ..).2 ?_
  refine (safe_pushCall sound receiver genuine).bind fun _ m₁ grows₁ sound₁ _ => ?_
  refine (safe_callUntyped (bodies.grows grows₁) sound₁ (grows₁.genuine callee)).bind fun _ m₂ grows₂ sound₂ _ => ?_
  refine (safe_dropArgs sound₂ _).bind fun _ m₃ grows₃ sound₃ _ => ?_
  exact ⟨⟨.refl sound₃.valid, sound₃⟩, sound₃.lastReturn⟩

/-- The object is the constructor's receiver, so its type is that of a receiver. -/
theorem safe_construct (bodies : HostSafe S host m) (sound : m.Sound S) (callee : m.heap.Genuine fn)
    (genuine : ∀ w ∈ args, m.heap.Genuine w) :
    Safe S (construct host fuel fn args) m fun w m' => m'.heap.Genuine w := by
  rw [construct_eq]
  refine (safe_callable sound callee).bind fun (ref, r, code) m₁ grows₁ sound₁ ⟨found, coded⟩ => ?_
  dsimp only at found coded ⊢
  split
  · exact safe_describe (grows₁.genuine callee) fun _ => .violate sound₁ _
  refine ((works_instantiate sound₁.valid found).safe sound₁ (.instantiate found)).bind
    fun obj m₂ grows₂ sound₂ object => ?_
  have grows := grows₁.trans grows₂
  have itself := grows₂.genuine (sound₁.valid.word_genuine found)
  refine (safe_callRecord (bodies.grows grows) sound₂ itself (coded.grows grows₂) object
    (grows.allGenuine genuine)).discard.bind fun _ m₃ grows₃ sound₃ _ => ?_
  have object₃ := grows₃.genuine object
  have done : Safe S (pure obj) m₃ fun w m' => m'.heap.Genuine w := .pure sound₃ object₃
  cases tag : r.tag with
  | none => exact done
  | some t =>
    rw [tag] at coded
    obtain ⟨sig, _, proper, shape, _, _⟩ := (coded.grows (grows₂.trans grows₃)).arity
    refine (ends_bind ..).2 ?_
    rw [ends_node, shape, Node.receiver]
    cases recv : sig.receiver with
    | none => exact done
    | some u =>
      refine (ends_bind ..).2 ?_
      rw [ends_node]
      cases m₃.types.graph.node u with
      | object props =>
        refine (safe_coerce sound₃ object₃ fun v same => ?_).discard.bind fun _ m₄ grows₄ sound₄ _ => ?_
        · cases same
          exact proper.receiver shape u recv
        · exact .pure sound₄ (grows₄.genuine object₃)
      | _ => exact done

end Run

end Gradual
