import Gradual.Proofs.Coercion.Search
import Gradual.Proofs.Machine.Arity
import Gradual.Proofs.Machine.CallStack

/-!
A typed closure that was handed to untyped code and came back. It is wrapped twice: once so that untyped code can call
it, and then so that typed code can call that. A call from typed code pushes the arguments for the inner wrapper, which
pops and coerces them, and the result comes back through the return register and is coerced too. Where the coercions
change nothing, all that is left of this is a run of the closure's own code. Main statement:
`Machine.Reachable.roundTrip_transparent`.
-/
namespace Gradual

/-- Coercion to the type returns the value itself and leaves the heap as it is. -/
def Machine.Accepts (m : Machine) (w : Word) (t : Child) : Prop :=
  ∃ m', Run.coerce w t m = .ok w m' ∧ m'.heap = m.heap

namespace Run

variable {α β : Type} {host : Host} {fuel : Nat} {m m' : Machine} {w recv : Word} {args : List Word} {ref : Ref}
  {r : Record} {code : Code} {t u : TypeId} {sig : Signature}

theorem ok_bind {act : Run β} {b : β} (ended : act m = .ok b m') (next : β → Run α) : (act >>= next) m = next b m' := by
  change EStateM.bind act next m = _
  unfold EStateM.bind
  rw [ended]

theorem bind_eq_bind {act act' : Run β} (same : act m = act' m') (next : β → Run α) :
    (act >>= next) m = (act' >>= next) m' := by
  change EStateM.bind act next m = EStateM.bind act' next m'
  unfold EStateM.bind
  rw [same]

theorem signature_eq (shape : m.types.graph.node t = .closure sig) : signature t m = .ok sig m :=
  Ends.eq_ok ((ends_signature shape).2 ⟨rfl, rfl⟩)

theorem wrappedCode_eq (found : m.heap.get? ref = some r) (has_code : r.code? = some code) :
    wrappedCode ref m = .ok (r, code) m :=
  Ends.eq_ok ((ends_wrappedCode found has_code).2 ⟨rfl, rfl⟩)

/-- Besides the heap a coercion writes the flag, and that only if it fails. -/
theorem coerce_unchanged (valid : m.Valid) (genuine : m.heap.Genuine w) (proper : m.types.Proper u) {v : Word}
    (ended : coerce w (some u) m = .ok v m') (heap : m'.heap = m.heap) : m' = m := by
  have evolves := ((coerce_faithful valid genuine proper).of_ok ended).evolves
  have dirty : m'.dirty = m.dirty := by
    rw [(framed_coerce w (some u)).eq_reframe ended]
    rfl
  calc m' = { m with heap := m'.heap, dirty := m'.dirty } := evolves.frame
    _ = m := by rw [heap, dirty]

/-- A value that is accepted is accepted whatever is on the stack and in the return register. -/
theorem coerce_eq_of_accepts (valid : m.Valid) (genuine : m.heap.Genuine w) (proper : m.types.Proper u)
    (accepts : m.Accepts w (some u)) (last : Word) (stack : List Word) :
    coerce w (some u) { m with lastReturn := last, args := stack } =
      .ok w { m with lastReturn := last, args := stack } := by
  obtain ⟨m', ended, heap⟩ := accepts
  obtain rfl := coerce_unchanged valid genuine proper ended heap
  have framed := (framed_coerce w (some u)).frame m' stack m'.dirty m'.trace
  rw [ended] at framed
  obtain ⟨m₁, left, states⟩ := (heedless_coerce w (some u)).ok framed last
  have kept : (m₁.withReturn Word.undefined).heap = m'.heap := by
    rw [states]
    rfl
  have valid' : Machine.Valid { m' with lastReturn := last, args := stack } := valid.reframe rfl rfl
  exact left.trans (congrArg (EStateM.Result.ok w) (coerce_unchanged valid' genuine proper left kept))

theorem forM_pushArg_eq (ws : List Word) (room : m.args.length + ws.length ≤ m.limits.argStack) :
    ws.forM pushArg m = .ok ⟨⟩ { m with args := ws.reverse ++ m.args } := by
  induction ws generalizing m with
  | nil => rfl
  | cons w ws ih =>
    have pushed : pushArg w m = .ok () { m with args := w :: m.args } := by
      have short : ¬m.limits.argStack ≤ m.args.length := by
        simp only [List.length_cons] at room
        omega
      apply Ends.eq_ok
      simp [pushArg, short]
    change (pushArg w >>= fun _ => ws.forM pushArg) m = _
    rw [ok_bind pushed, ih]
    · simp
    · simp only [List.length_cons] at room ⊢
      omega

theorem pushCall_eq (recv : Word) (room : m.args.length + args.length < m.limits.argStack) :
    pushCall recv args m = .ok () { m with args := recv :: (args ++ m.args) } := by
  have fits : m.args.length + (args.reverse ++ [recv]).length ≤ m.limits.argStack := by
    simp only [List.length_append, List.length_reverse, List.length_singleton]
    omega
  have pushed := forM_pushArg_eq (args.reverse ++ [recv]) fits
  rw [List.forM_eq_forM, List.forM_append] at pushed
  simpa [pushCall] using pushed

/-- A call of untyped code finds receiver and arguments on the stack and nothing in the return register. -/
theorem callOnStack_eq (code : Code) (room : m.args.length + args.length < m.limits.argStack) :
    callOnStack host (fuel + 1) code recv args m =
      (do
        runUntyped host fuel code
        dropArgs m.args.length
        return (← get).lastReturn)
        { m with lastReturn := Word.undefined, args := recv :: (args ++ m.args) } := by
  simp only [callOnStack]
  rw [get_bind, ok_bind (pushCall_eq recv room)]
  rfl

theorem popReceiver_eq (accepts : ∀ u, sig.receiver = some u → coerce recv (some u) m = .ok recv m) :
    popReceiver sig { m with args := recv :: m.args } = .ok recv m := by
  have popped : popArg { m with args := recv :: m.args } = .ok recv m := rfl
  rw [popReceiver, ok_bind popped]
  cases receiver : sig.receiver with
  | none => rfl
  | some u => exact accepts u receiver

theorem popCoerced_eq {ts : List Child}
    (accepts : List.Forall₂ (fun w t => ∀ stack, coerce w t { m with args := stack } = .ok w { m with args := stack })
      args ts) : popCoerced ts { m with args := args ++ m.args } = .ok args m := by
  induction accepts with
  | nil => rfl
  | @cons w t ws ts here _ ih =>
    have popped : popArg { m with args := w :: (ws ++ m.args) } = .ok w { m with args := ws ++ m.args } := rfl
    rw [popCoerced, List.cons_append, ok_bind popped, ok_bind (here _), ok_bind ih]
    rfl

/-- Entered from the stack, typed code is run with the receiver and the arguments that are there. -/
theorem enterTyped_eq (tag : r.tag = some t) (shape : m.types.graph.node t = .closure sig)
    (receiver : ∀ u, sig.receiver = some u → ∀ stack,
      coerce recv (some u) { m with args := stack } = .ok recv { m with args := stack })
    (accepts : List.Forall₂ (fun w t => ∀ stack, coerce w t { m with args := stack } = .ok w { m with args := stack })
      args sig.explicit) :
    enterTyped host (fuel + 1) r code { m with args := recv :: (args ++ m.args) } =
      invoke host fuel code recv args m := by
  let full : Machine := { m with args := recv :: (args ++ m.args) }
  have typed : signature t full = .ok sig full := signature_eq shape
  have popped : popReceiver sig full = .ok recv { m with args := args ++ m.args } :=
    popReceiver_eq (m := { m with args := args ++ m.args }) fun u is => receiver u is _
  simp only [enterTyped, tag]
  rw [ok_bind typed, ok_bind popped, ok_bind (popCoerced_eq accepts)]

/-- What follows the code of a closure that is called through both wrappers: its result goes through the return
register, arguments that were left above `height` are dropped, and the result is coerced. -/
def handBack (height : Nat) (t : TypeId) (result : Word) : Run Word := do
  setReturn result
  dropArgs height
  let last := (← get).lastReturn
  coerce last (← signature t).ret

/-- With nothing left to be dropped, only the coercion of the result is to be done. -/
theorem handBack_eq (shape : m.types.graph.node t = .closure sig) (result : Word) :
    handBack m.args.length t result m = coerce result sig.ret (m.withReturn result) := by
  have set : setReturn result m = .ok () (m.withReturn result) := rfl
  have dropped : dropArgs m.args.length (m.withReturn result) = .ok () (m.withReturn result) := by
    change EStateM.Result.ok () { m.withReturn result with args := m.args.drop (m.args.length - m.args.length) } = _
    rw [Nat.sub_self]
    rfl
  have typed : signature t (m.withReturn result) = .ok sig (m.withReturn result) := signature_eq shape
  rw [handBack, ok_bind set, ok_bind dropped, get_bind, ok_bind typed]
  rfl

theorem handBack_of_accepts {result : Word} (shape : m.types.graph.node t = .closure sig)
    (accepts : m.Accepts result sig.ret) :
    ∃ m', handBack m.args.length t result m = .ok result m' ∧ m'.heap = m.heap ∧ m'.args = m.args := by
  obtain ⟨m₁, accepted, heap⟩ := accepts
  obtain ⟨m', ended, states⟩ := (heedless_coerce result sig.ret).ok accepted result
  have same : (m'.withReturn Word.undefined).heap = m₁.heap := by
    rw [states]
    rfl
  have stack := ((framed_coerce result sig.ret).keeps (m.withReturn result)).of_ok ended
  exact ⟨m', (handBack_eq shape result).trans ended, same.trans heap, stack.1⟩

theorem handBack_of_rejects {result : Word} {f : Fault} (shape : m.types.graph.node t = .closure sig)
    (rejected : coerce result sig.ret m = .error f m') :
    ∃ m₁, handBack m.args.length t result m = .error f m₁ := by
  obtain ⟨m₁, ended⟩ := (heedless_coerce result sig.ret).error rejected result
  exact ⟨m₁, (handBack_eq shape result).trans ended⟩

end Run

namespace Machine

variable {m m' : Machine} {g : Word} {arity : Nat} {ref : Ref} {code : Code} {t : TypeId} {sig : Signature}
  {host : Host} {fuel : Nat} {recv : Word} {args : List Word}

/-- The closure `g` is callable from typed code and wraps one that is callable from untyped code, which wraps the
closure at `ref`. -/
inductive RoundTrip (m : Machine) (g : Word) (arity : Nat) (t : TypeId) (ref : Ref) (code : Code) : Prop where
  | intro {outer inner : Ref} {rg re r : Record} (known : g.decode? = some (.closure outer))
      (at_outer : m.heap.get? outer = some rg) (imports : rg.code? = some (.importing arity inner t))
      (at_inner : m.heap.get? inner = some re) (exports : re.code? = some (.exporting ref t))
      (found : m.heap.get? ref = some r) (has_code : r.code? = some code) (tag : r.tag = some t)

theorem RoundTrip.persists (wrapped : m.RoundTrip g arity t ref code) (persists : m.Persists m') :
    m'.RoundTrip g arity t ref code := by
  obtain ⟨known, at_outer, imports, at_inner, exports, found, has_code, tag⟩ := wrapped
  obtain ⟨_, at_outer', imports', _⟩ := persists.closure at_outer imports
  obtain ⟨_, at_inner', exports', _⟩ := persists.closure at_inner exports
  obtain ⟨_, found', has_code', tag'⟩ := persists.closure found has_code
  exact ⟨known, at_outer', imports', at_inner', exports', found', has_code', tag'.trans tag⟩

/-- A call through both wrappers is a run of the code inside, on the stack of the caller and with nothing in the return
register. -/
theorem RoundTrip.call_eq (wrapped : m.RoundTrip g args.length t ref code)
    (shape : m.types.graph.node t = .closure sig) (room : m.args.length + args.length < m.limits.argStack)
    (receiver : ∀ u, sig.receiver = some u → ∀ stack,
      Run.coerce recv (some u) { m with lastReturn := Word.undefined, args := stack } =
        .ok recv { m with lastReturn := Word.undefined, args := stack })
    (accepts : List.Forall₂ (fun w t => ∀ stack,
      Run.coerce w t { m with lastReturn := Word.undefined, args := stack } =
        .ok w { m with lastReturn := Word.undefined, args := stack }) args sig.explicit) :
    Run.call host (fuel + 4) g recv args m =
      (Run.invoke host fuel code recv args >>= Run.handBack m.args.length t) (m.withReturn Word.undefined) := by
  obtain ⟨known, at_outer, imports, at_inner, exports, found, has_code, tag⟩ := wrapped
  let start : Machine := { m with lastReturn := Word.undefined, args := recv :: (args ++ m.args) }
  have entered : Run.enterTyped host (fuel + 1) _ code start =
      Run.invoke host fuel code recv args (m.withReturn Word.undefined) :=
    Run.enterTyped_eq (m := m.withReturn Word.undefined) tag shape receiver accepts
  have unwrapped : Run.runUntyped host (fuel + 2) (.exporting ref t) start =
      (Run.invoke host fuel code recv args >>= Run.setReturn) (m.withReturn Word.undefined) := by
    have inner : Run.wrappedCode ref start = .ok (_, code) start := Run.wrappedCode_eq found has_code
    simp only [Run.runUntyped]
    rw [Run.ok_bind inner]
    exact Run.bind_eq_bind entered Run.setReturn
  rw [Run.call_eq_invoke known at_outer imports rfl]
  simp only [Run.invoke, Nat.lt_irrefl, if_false]
  rw [Run.ok_bind (Run.wrappedCode_eq at_inner exports)]
  rw [Run.bind_eq_bind (Run.callOnStack_eq (.exporting ref t) room), bind_assoc, Run.bind_eq_bind unwrapped]
  simp only [bind_assoc, pure_bind]
  rfl

end Machine

namespace Run

def roundTrip (fn : Word) (t : TypeId) : Run Word := do
  coerce (← exportClosure fn) (some t)

variable {m : Machine} {fn e : Word} {ref : Ref} {r : Record} {code : Code} {t : TypeId} {sig : Signature}

def exporter (ref : Ref) (t : TypeId) : Record := Record.plain (.untypedClosure (.exporting ref t))

theorem ends_exportClosure (known : fn.decode? = some (.closure ref)) (found : m.heap.get? ref = some r)
    (has_code : r.code? = some code) (tag : r.tag = some t) :
    Ends (exportClosure fn) m
      (fun e m₁ => m.heap.size + 1 ≤ maxRef ∧ e = (exporter ref t).word (m.heap.size + 1) ∧
        m₁ = { m with heap := m.heap.add (exporter ref t) })
      fun _ _ => ¬m.heap.size + 1 ≤ maxRef := by
  refine (ends_bind ..).2 ((ends_callable_closure known found has_code).2 ?_)
  simp only [tag]
  rw [ends_allocate]
  split
  next room => exact ⟨room, rfl, rfl⟩
  next full => exact full

/-- An untyped closure is wrapped for a type, unless coercions are nested too deeply, the type has too many arguments or
there are no handles left. -/
theorem ends_coerce_untyped (known : e.decode? = some (.closure ref)) (found : m.heap.get? ref = some r)
    (untagged : r.tag = none) (shape : m.types.graph.node t = .closure sig) (plain : sig.code ≠ .constructor)
    {arity : Nat} (count : sig.explicitCount = arity) :
    Ends (coerce e (some t)) m
      (fun g m' => m.heap.size + 1 ≤ maxRef ∧ g = (Record.wrapper arity ref t).word (m.heap.size + 1) ∧
        m' = { m with heap := m.heap.add (Record.wrapper arity ref t) })
      fun _ _ => ¬(m.depth < m.limits.coerceDepth ∧ arity ≤ maxArity ∧ m.heap.size + 1 ≤ maxRef) := by
  have defined : e ≠ Word.undefined := by
    rintro rfl
    cases known
  refine (ends_bind ..).2 ((ends_get).2 ?_)
  cases left : m.limits.coerceDepth - m.depth with
  | zero =>
    refine ends_nested.2 ?_
    intro fits
    omega
  | succ budget =>
    simp only [coerceWithin]
    refine ends_nested.2 ?_
    simp only [coerceStep, if_neg defined, ends_bind, ends_node, shape, coerceClosure, ends_decode known]
    rw [ends_recordAt (show ({ m with depth := m.depth + 1 } : Machine).heap.get? ref = some r from found)]
    simp only [untagged, if_neg plain, importClosure, count, gt_iff_lt, Int.toNat_natCast]
    by_cases many : (maxArity : Int) < arity
    · rw [if_pos many]
      intro fits
      omega
    · rw [if_neg many, if_neg (Int.not_lt.2 (Int.natCast_nonneg arity)), ends_allocate]
      split
      next room => exact ⟨room, rfl, rfl⟩
      next full => exact fun fits => full fits.2.2

end Run

namespace Machine

variable {m m₁ m₂ : Machine} {fn e g recv : Word} {args : List Word} {ref : Ref} {r : Record} {code : Code} {t : TypeId}
  {sig : Signature} {host : Host}

theorem genuine_of_code (known : fn.decode? = some (.closure ref)) (found : m.heap.get? ref = some r)
    (has_code : r.code? = some code) : m.heap.Genuine fn := by
  refine ⟨_, known, fun x is_ref => ?_⟩
  cases is_ref
  refine ⟨r, found, ?_⟩
  unfold Record.code? at has_code
  split at has_code
  all_goals simp_all [Record.value, Record.kind]

/-- Arguments that are accepted one by one are accepted whatever is on the stack while they are popped. -/
theorem Valid.accepts_popped (valid : m.Valid) {ts : List Child} (genuine : ∀ w ∈ args, m.heap.Genuine w)
    (proper : ∀ u, some u ∈ ts → m.types.Proper u) (accepts : List.Forall₂ m.Accepts args ts) (last : Word) :
    List.Forall₂ (fun w t => ∀ stack, Run.coerce w t { m with lastReturn := last, args := stack } =
      .ok w { m with lastReturn := last, args := stack }) args ts := by
  induction accepts with
  | nil => exact .nil
  | @cons w t ws ts here _ ih =>
    obtain ⟨genuine, rest⟩ := List.forall_mem_cons.1 genuine
    refine .cons ?_ (ih rest fun u member => proper u (List.mem_cons_of_mem _ member))
    cases t with
    | none =>
      obtain ⟨_, ended, _⟩ := here
      simp only [Run.coerce, Run.get_bind, Run.coerceWithin] at ended
      cases ended
    | some u => exact Run.coerce_eq_of_accepts valid genuine (proper u List.mem_cons_self) here last

/-- The two wrappers are new records, and the closure inside is left as it is. Both are made if coercions are not nested
too deeply, the type has not too many arguments and there are handles for them. -/
theorem Reachable.ends_roundTrip (reachable : m.Reachable) (known : fn.decode? = some (.closure ref))
    (found : m.heap.get? ref = some r) (has_code : r.code? = some code) (tag : r.tag = some t)
    (shape : m.types.graph.node t = .closure sig) (plain : sig.code ≠ .constructor) {arity : Nat}
    (count : sig.explicitCount = arity) :
    Run.Ends (Run.roundTrip fn t) m
      (fun g m₂ => m.Leads m₂ ∧ m₂.heap.get? ref = some r ∧ m₂.RoundTrip g arity t ref code)
      fun _ _ => ¬(m.depth < m.limits.coerceDepth ∧ arity ≤ Run.maxArity ∧ m.heap.size + 2 ≤ maxRef) := by
  have genuine := genuine_of_code known found has_code
  have proper := ((reachable.valid.records found).tagged t tag).1
  refine (Run.ends_bind ..).2 ((Run.ends_after (Run.ends_exportClosure known found has_code tag)).mono ?_ ?_)
  · rintro e m₁ ⟨after, room, rfl, made⟩
    have leads : m.Leads m₁ := after ▸ (Offers.exportClosure genuine).leads
    subst made
    have at_inner : (m.heap.add (Run.exporter ref t)).get? (m.heap.size + 1) = some (Run.exporter ref t) := by
      rw [Heap.get?_add, if_pos rfl]
    have inner : ((Run.exporter ref t).word (m.heap.size + 1)).decode? = some (.closure (m.heap.size + 1)) :=
      (Run.exporter ref t).word_decode? (Nat.succ_ne_zero _) room
    let m₁ : Machine := { m with heap := m.heap.add (Run.exporter ref t) }
    have offer : m₁.Offers (Run.coerce ((Run.exporter ref t).word (m.heap.size + 1)) (some t)) :=
      .coerce (genuine_of_code inner at_inner rfl) proper
    refine (Run.ends_after (Run.ends_coerce_untyped (m := m₁) inner at_inner rfl shape plain count)).mono ?_ ?_
    · rintro g m₂ ⟨after', room', rfl, made⟩
      have leads' : m.Leads m₂ := leads.trans (after' ▸ offer.leads)
      subst made
      let wrapper := Record.wrapper arity (m.heap.size + 1) t
      have old {x : Ref} {rx : Record} (present : m₁.heap.get? x = some rx) :
          (m₁.heap.add wrapper).get? x = some rx := Heap.get?_add_old present wrapper
      have at_outer : (m₁.heap.add wrapper).get? (m₁.heap.size + 1) = some wrapper := by
        rw [Heap.get?_add, if_pos rfl]
      have kept := old (Heap.get?_add_old found _)
      exact ⟨leads', kept, wrapper.word_decode? (Nat.succ_ne_zero _) room', at_outer, rfl, old at_inner, rfl, kept,
        has_code, tag⟩
    · rintro _ _ ⟨_, fault⟩ ⟨depth, few, room'⟩
      refine fault ⟨depth, few, ?_⟩
      rw [Heap.size_add]
      omega
  · rintro _ _ ⟨_, full⟩ ⟨_, _, room⟩
    omega

/-- A closure of a function or method type whose code leaves the stack as it found it is exported and coerced back. Its
own record stays as it is. Called with a receiver and arguments that are accepted, the wrapper runs the code of the
closure on them, as a call of the closure itself does with nothing in the return register; four levels of calls come
between. If the result is accepted it is returned, with heap and stack as the code left them, and if its coercion is a
violation then so is the call. Of the types the code may only have added some, which is all that operations do. -/
theorem Reachable.roundTrip_transparent (reachable : m.Reachable) (known : fn.decode? = some (.closure ref))
    (found : m.heap.get? ref = some r) (has_code : r.code? = some code) (tag : r.tag = some t)
    (shape : m.types.graph.node t = .closure sig) (plain : sig.code ≠ .constructor)
    (leaves : Run.LeavesStack host code) :
    (m.depth < m.limits.coerceDepth → sig.explicitCount ≤ Run.maxArity → m.heap.size + 2 ≤ maxRef →
      ∃ g m₂, Run.roundTrip fn t m = .ok g m₂) ∧
    ∀ g m₂, Run.roundTrip fn t m = .ok g m₂ → m₂.heap.get? ref = some r ∧
      ∀ (later : Machine) (fuel : Nat) (recv : Word) (args : List Word), m₂.Leads later →
        sig.explicitCount = args.length → (∀ w ∈ recv :: args, later.heap.Genuine w) →
        (∀ u, sig.receiver = some u → later.Accepts recv (some u)) → List.Forall₂ later.Accepts args sig.explicit →
        later.args.length + args.length < later.limits.argStack →
        let start := later.withReturn Word.undefined
        Run.call host (fuel + 4) g recv args later =
            (Run.invoke host fuel code recv args >>= Run.handBack later.args.length t) start ∧
          Run.call host fuel fn recv args start = Run.invoke host fuel code recv args start ∧
          ∀ result m₄, Run.call host fuel fn recv args start = .ok result m₄ → later.types.Extends m₄.types →
            (m₄.Accepts result sig.ret → ∃ m₅, Run.call host (fuel + 4) g recv args later = .ok result m₅ ∧
              m₅.heap = m₄.heap ∧ m₅.args = m₄.args) ∧
            ∀ v m', Run.coerce result sig.ret m₄ = .error (.violation v) m' →
              ∃ m₅, Run.call host (fuel + 4) g recv args later = .error (.violation v) m₅ := by
  obtain ⟨_, proper, shape', arity, count, takes⟩ := reachable.agrees found has_code t tag
  cases shape.symm.trans shape'
  have made := reachable.ends_roundTrip known found has_code tag shape plain count
  constructor
  · intro depth few room
    unfold Run.Ends at made
    cases ended : Run.roundTrip fn t m with
    | ok g m₂ => exact ⟨g, m₂, rfl⟩
    | error f m₂ =>
      rw [ended] at made
      rw [count] at few
      exact absurd ⟨depth, Int.ofNat_le.1 few, room⟩ made
  · intro g m₂ ended
    obtain ⟨leads, kept, wrapped⟩ := made.of_ok ended
    refine ⟨kept, ?_⟩
    intro later fuel recv args leads' given genuine receiver accepts room start
    obtain ⟨valid, persists⟩ := (leads.trans leads').persists reachable.valid
    obtain ⟨genuine_recv, genuine_args⟩ := List.forall_mem_cons.1 genuine
    have proper' := persists.proper proper
    have typed : later.types.graph.node t = .closure sig := (persists.types.nodes t proper).trans shape
    have same : arity = args.length := by
      rw [count] at given
      exact_mod_cast given
    subst same
    have wrapped' := wrapped.persists (leads'.persists (leads.persists reachable.valid).1).2
    have runs : Run.call host (fuel + 4) g recv args later =
        (Run.invoke host fuel code recv args >>= Run.handBack later.args.length t) start :=
      wrapped'.call_eq typed room
        (fun u is => Run.coerce_eq_of_accepts valid genuine_recv (proper'.receiver typed u is) (receiver u is) _)
        (valid.accepts_popped genuine_args (proper'.explicit typed) accepts _)
    obtain ⟨r', found', has_code', _⟩ := persists.closure found has_code
    have calls : Run.call host fuel fn recv args start = Run.invoke host fuel code recv args start :=
      Run.call_eq_invoke (m := start) known found' has_code' takes host fuel recv
    refine ⟨runs, calls, fun result m₄ returned grown => ?_⟩
    -- the code is back with the stack of the caller, so nothing is dropped
    rw [calls] at returned
    have stack : m₄.args = later.args := leaves fuel recv args start result m₄ returned
    have typed' : m₄.types.graph.node t = .closure sig := (grown.nodes t proper').trans typed
    rw [runs, Run.ok_bind returned, ← stack]
    exact ⟨Run.handBack_of_accepts typed', fun _ _ => Run.handBack_of_rejects typed'⟩

def unaryMethod : Machine := (Run.newClosure (some 7) (.typed 1) default none).after unary

theorem unaryMethod_reachable : unaryMethod.Reachable := by
  refine .step unary_reachable (.newClosure ?_ _ _ _)
  intro u same
  cases same
  exact unary_proper 7 (by decide)

def ownReceiver : Host := ⟨fun _ _ recv _ => pure recv, fun _ _ => pure ()⟩

/-- The method has been exported and has come back as the fifth record. -/
def returned : Machine := (Run.roundTrip (Word.closureRef 3) 7).after unaryMethod

/-- The method promises an int and returns its receiver: an int is returned, and a bool is a violation. -/
theorem roundTrip_transparent_returned :
    Run.roundTrip (Word.closureRef 3) 7 unaryMethod = .ok (Word.closureRef 5) returned ∧
      returned.heap.get? 3 = unaryMethod.heap.get? 3 ∧
      (∃ m', Run.call ownReceiver 5 (Word.closureRef 5) (Word.ofInt 8) [Word.ofInt 5] returned = .ok (Word.ofInt 8) m' ∧
        m'.heap = returned.heap ∧ m'.args = returned.args) ∧
      ∃ v m', Run.call ownReceiver 5 (Word.closureRef 5) (Word.ofBool true) [Word.ofInt 5] returned =
        .error (.violation v) m' := by
  have known : (Word.closureRef 3).decode? = some (.closure 3) := rfl
  have leaves : Run.LeavesStack ownReceiver (.typed 1 default none) := Run.leavesStack_pure _ _ 1 default none
  have made : Run.roundTrip (Word.closureRef 3) 7 unaryMethod = .ok (Word.closureRef 5) returned := rfl
  obtain ⟨kept, calls⟩ := (unaryMethod_reachable.roundTrip_transparent known rfl rfl rfl rfl (by decide) leaves).2
    (Word.closureRef 5) returned made
  have call (recv : Word) (genuine : returned.heap.Genuine recv) (any : returned.Accepts recv (some 5)) :=
    calls returned 1 recv [Word.ofInt 5] .refl rfl
      (List.forall_mem_cons.2 ⟨genuine, List.forall_mem_singleton.2 ⟨.int 5, rfl, nofun⟩⟩)
      (fun u is => by cases is; exact any) (.cons ⟨_, rfl, rfl⟩ .nil) (by decide)
  have distinct : returned.types.names.names.toList.Nodup := by decide
  obtain ⟨_, _, ends⟩ := call (Word.ofInt 8) ⟨.int 8, rfl, nofun⟩ ⟨_, rfl, rfl⟩
  obtain ⟨_, _, ends'⟩ := call (Word.ofBool true) ⟨.bool true, rfl, nofun⟩ ⟨_, rfl, rfl⟩
  refine ⟨made, kept, ?_, ?_⟩
  · exact (ends (Word.ofInt 8) _ rfl (.refl distinct)).1 ⟨_, rfl, rfl⟩
  · exact ⟨_, (ends' (Word.ofBool true) _ rfl (.refl distinct)).2 _ _ rfl⟩

end Machine

end Gradual
