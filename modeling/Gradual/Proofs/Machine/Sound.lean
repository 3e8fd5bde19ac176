import Gradual.Proofs.Machine.Reachable

/-!
Machines that can run. All words on the stack and in closures are values, every closure has code that its
tag calls for, and a wrapper has something to call inside. `Run.Safe` says of an action that it leaves such
a machine however it ends, and that it fails only in ways a host can answer for. It carries through a `do`
block, and every operation of the machine is safe.
-/
namespace Gradual

/-- What is settled before a run: the types it starts from, and what holds of the bodies of closures. -/
structure Setting where
  base : TypeStore
  Runs : Body → Prop

namespace Machine

/-- The code is one that a closure with this tag can have. Typed code takes as many arguments as the tag
says and stands only under a tag; wrappers have a closure of the other sort inside. -/
inductive Coded (Runs : Body → Prop) (m : Machine) : Child → Code → Prop where
  | typed {t : TypeId} {sig : Signature} {arity : Nat} {body : Body} {env : Option (List Word)}
      (proper : m.types.Proper t) (shape : m.types.graph.node t = .closure sig) (count : sig.explicitCount = arity)
      (runs : Runs body) (captured : ∀ w ∈ env.getD [], m.heap.Genuine w) :
      Coded Runs m (some t) (.typed arity body env)
  | untyped {body : Body} {env : Option (List Word)} (runs : Runs body)
      (captured : ∀ w ∈ env.getD [], m.heap.Genuine w) : Coded Runs m none (.untyped body env)
  | importing {n : Nat} {old : Ref} {t : TypeId} (proper : m.types.Proper t) (imports : m.Imports n old t) :
      Coded Runs m (some t) (.importing n old t)
  | exporting {ref : Ref} {r : Record} {t : TypeId} (found : m.heap.get? ref = some r) (callable : r.kind.isCallable)
      (tag : r.tag = some t) : Coded Runs m none (.exporting ref t)

structure Grows (m m' : Machine) : Prop extends Persists m m' where
  leads : m.Leads m'

structure Sound (S : Setting) (m : Machine) : Prop where
  valid : m.Valid
  types : S.base.Extends m.types
  args : ∀ w ∈ m.args, m.heap.Genuine w
  lastReturn : m.heap.Genuine m.lastReturn
  closures : ∀ {ref : Ref} {r : Record} {code : Code}, m.heap.get? ref = some r → r.code? = some code →
    m.Coded S.Runs r.tag code

variable {S : Setting} {Runs : Body → Prop} {m m' m'' : Machine} {w : Word}

theorem Leads.grows (leads : m.Leads m') (valid : m.Valid) : m.Grows m' := ⟨(leads.persists valid).2, leads⟩

namespace Grows

theorem refl (valid : m.Valid) : m.Grows m := Leads.refl.grows valid

theorem trans (first : m.Grows m') (second : m'.Grows m'') : m.Grows m'' :=
  ⟨first.toPersists.trans second.toPersists, first.leads.trans second.leads⟩

end Grows

theorem Coded.grows {tag : Child} {code : Code} (coded : m.Coded Runs tag code) (grows : m.Grows m') :
    m'.Coded Runs tag code := by
  cases coded with
  | typed proper shape count runs captured =>
    exact .typed (grows.proper proper) ((grows.types.nodes _ proper).trans shape) count runs (grows.allGenuine captured)
  | untyped runs captured => exact .untyped runs (grows.allGenuine captured)
  | importing proper imports =>
    obtain ⟨sig, r, shape, count, found, callable, untagged⟩ := imports
    obtain ⟨r', found', keeps⟩ := grows.records found
    exact .importing (grows.proper proper) ⟨sig, r', (grows.types.nodes _ proper).trans shape, count, found',
      keeps.kind ▸ callable, (keeps.closure callable).2.trans untagged⟩
  | exporting found callable tag =>
    obtain ⟨r', found', keeps⟩ := grows.records found
    exact .exporting found' (keeps.kind ▸ callable) ((keeps.closure callable).2.trans tag)

/-- Old closures are what they were, so only new ones need a look. -/
theorem Sound.grown (sound : m.Sound S) (grows : m.Grows m') (valid : m'.Valid)
    (args : ∀ w ∈ m'.args, m'.heap.Genuine w) (lastReturn : m'.heap.Genuine m'.lastReturn)
    (new : ∀ {ref : Ref} {r : Record} {code : Code}, m.heap.get? ref = none → m'.heap.get? ref = some r →
      r.code? = some code → m'.Coded S.Runs r.tag code) : m'.Sound S where
  valid := valid
  types := sound.types.trans grows.types
  args := args
  lastReturn := lastReturn
  closures {ref r' code} found' has_code := by
    cases old : m.heap.get? ref with
    | none => exact new old found' has_code
    | some r =>
      obtain ⟨_, same, keeps⟩ := grows.records old
      cases found'.symm.trans same
      have callable : r.kind.isCallable := keeps.kind ▸ Record.isCallable_iff.2 ⟨code, has_code⟩
      obtain ⟨body, tag⟩ := keeps.closure callable
      rw [tag]
      exact (sound.closures old ((Record.code?_congr body).symm.trans has_code)).grows grows

theorem Alters.sound (alters : m.Alters (m'.Coded S.Runs) m') (sound : m.Sound S) (leads : m.Leads m') :
    m.Grows m' ∧ m'.Sound S := by
  have grows := leads.grows sound.valid
  have args : m'.args = m.args := by rw [alters.frame]
  have lastReturn : m'.lastReturn = m.lastReturn := by rw [alters.frame]
  exact ⟨grows, sound.grown grows alters.valid (args ▸ grows.allGenuine sound.args)
    (lastReturn ▸ grows.genuine sound.lastReturn) alters.closures⟩

/-- Only the stack and the flag have changed. -/
theorem Sound.restack {n : Machine} (sound : m.Sound S) (leads : m.Leads n) (heap : n.heap = m.heap)
    (types : n.types = m.types) (args : ∀ w ∈ n.args, m.heap.Genuine w) (lastReturn : m.heap.Genuine n.lastReturn) :
    m.Grows n ∧ n.Sound S := by
  have grows := leads.grows sound.valid
  refine ⟨grows, sound.grown grows (sound.valid.reframe heap types) (heap ▸ args) (heap ▸ lastReturn)
    fun missing found => ?_⟩
  rw [heap, missing] at found
  cases found

theorem Sound.recover (sound : m.Sound S) (height depth : Nat) :
    m.Grows (m.recover height depth) ∧ (m.recover height depth).Sound S :=
  sound.restack (Offers.recover height depth).leads rfl rfl
    (fun w member => sound.args w (List.mem_of_mem_drop member)) sound.lastReturn

theorem Sound.flagged (sound : m.Sound S) :
    m.Grows { m with dirty := true } ∧ Machine.Sound S { m with dirty := true } :=
  sound.restack (.flag m) rfl rfl sound.args sound.lastReturn

theorem Sound.traced (sound : m.Sound S) (lines : List String) :
    m.Grows { m with trace := lines } ∧ Machine.Sound S { m with trace := lines } :=
  sound.restack (Offers.trace lines).leads rfl rfl sound.args sound.lastReturn

end Machine

theorem Fault.Raised.fair {f : Fault} {m : Machine} (raised : f.Raised m) : f.Fair m := by
  unfold Fault.Raised at raised
  split at raised
  · trivial
  · exact raised
  · exact raised.elim

namespace Run

variable {α β : Type} {S : Setting} {m : Machine} {w obj : Word} {ok : α → Machine → Prop}

/-- However the action ends the machine is sound and has kept what stays. It ends with a value as `ok` says
or with a fault that a host can answer for. -/
def Safe (S : Setting) (act : Run α) (m : Machine) (ok : α → Machine → Prop) : Prop :=
  Ends act m (fun a m' => (m.Grows m' ∧ m'.Sound S) ∧ ok a m') fun f m' => f.Fair m' ∧ m.Grows m' ∧ m'.Sound S

namespace Safe

theorem pure {a : α} (sound : m.Sound S) (here : ok a m) : Safe S (pure a) m ok :=
  ⟨⟨.refl sound.valid, sound⟩, here⟩

theorem throw {f : Fault} (sound : m.Sound S) (fair : f.Fair m) : Safe S (throw f : Run α) m ok :=
  ⟨fair, .refl sound.valid, sound⟩

theorem bind {act : Run β} {next : β → Run α} {mid : β → Machine → Prop} (first : Safe S act m mid)
    (rest : ∀ b m', m.Grows m' → m'.Sound S → mid b m' → Safe S (next b) m' ok) : Safe S (act >>= next) m ok := by
  refine (ends_bind ..).2 (first.mono ?_ fun _ _ fault => fault)
  rintro b m' ⟨⟨grows, sound⟩, here⟩
  refine (rest b m' grows sound here).mono ?_ ?_
  · rintro a m'' ⟨⟨grows', sound'⟩, done⟩
    exact ⟨⟨grows.trans grows', sound'⟩, done⟩
  · rintro f m'' ⟨fair, grows', sound'⟩
    exact ⟨fair, grows.trans grows', sound'⟩

theorem discard {act : Run β} {mid : β → Machine → Prop} (safe : Safe S act m mid) :
    Safe S (discard act) m fun _ _ => True :=
  (ends_discard _).2 (Ends.mono safe (fun _ _ done => ⟨done.1, trivial⟩) fun _ _ fault => fault)

theorem violate (sound : m.Sound S) (v : Violation) : Safe S (violate v : Run α) m ok :=
  ⟨trivial, sound.flagged⟩

/-- What is left of a violation that was caught is a sound machine. -/
theorem protect {act : Run α} (safe : Safe S act m ok) :
    Safe S (protect act) m fun result m' => ∀ a, result = .ok a → ok a m' := by
  unfold Safe Ends at safe
  unfold Safe Ends Run.protect
  cases ended : act m with
  | ok a m' =>
    rw [ended] at safe
    refine ⟨safe.1, fun b same => ?_⟩
    cases same
    exact safe.2
  | error f m' =>
    rw [ended] at safe
    obtain ⟨fair, grows, sound⟩ := safe
    cases f with
    | violation v =>
      have recovered := sound.recover m.args.length m.depth
      exact ⟨⟨grows.trans recovered.1, recovered.2⟩, nofun⟩
    | misuse e => exact ⟨fair, grows, sound⟩
    | broken => exact fair.elim
    | exhausted => exact ⟨fair, grows, sound⟩

/-- A loop keeps the machine sound if its body does. -/
theorem forM {ι : Type} {f : ι → Run PUnit} {xs : List ι} (sound : m.Sound S)
    (each : ∀ x ∈ xs, ∀ m', m.Grows m' → m'.Sound S → Safe S (f x) m' fun _ _ => True) :
    Safe S (xs.forM f) m fun _ _ => True := by
  induction xs generalizing m with
  | nil => exact .pure sound trivial
  | cons x xs ih =>
    change Safe S (f x >>= fun _ => xs.forM f) m _
    refine (each x List.mem_cons_self m (.refl sound.valid) sound).bind fun _ m' grows sound' _ => ?_
    exact ih sound' fun y member m'' grows' => each y (List.mem_cons_of_mem _ member) m'' (grows.trans grows')

end Safe

theorem Works.safe {act : Run α} (works : Works (m.Coded S.Runs) act m ok) (sound : m.Sound S)
    (offer : m.Offers act) : Safe S act m ok := by
  have kept {m' : Machine} (here : m' = act.after m) (alters : m.Alters (m.Coded S.Runs) m') :
      m.Grows m' ∧ m'.Sound S := by
    subst here
    have grows := offer.leads.grows sound.valid
    have alters' : m.Alters ((act.after m).Coded S.Runs) (act.after m) :=
      { alters with closures := fun missing found has_code => (alters.closures missing found has_code).grows grows }
    exact alters'.sound sound offer.leads
  exact (ends_after works).mono (fun _ _ done => ⟨kept done.1 done.2.1, done.2.2⟩)
    fun _ _ fault => ⟨fault.2.1, kept fault.1 fault.2.2⟩

/-- Reading leaves the machine as it is, so what holds of the result there holds of it afterwards. -/
theorem Reads.safe_still {act : Run α} {ok : α → Machine → Prop} (reads : Reads act m (ok · m))
    (sound : m.Sound S) : Safe S act m ok := by
  refine Ends.mono reads ?_ ?_
  · rintro a _ ⟨rfl, here⟩
    exact ⟨⟨.refl sound.valid, sound⟩, here⟩
  · rintro f _ ⟨fair, rfl | rfl⟩
    · exact ⟨fair, .refl sound.valid, sound⟩
    · exact ⟨fair, sound.flagged⟩

theorem Reads.safe {act : Run α} {ok : α → Prop} (reads : Reads act m ok) (sound : m.Sound S) :
    Safe S act m fun a _ => ok a :=
  safe_still reads sound

theorem Reads.safe_word {act : Run Word} (reads : Reads act m m.heap.Genuine) (sound : m.Sound S) :
    Safe S act m fun w m' => m'.heap.Genuine w :=
  safe_still reads sound

theorem safe_coerce {t : Child} (sound : m.Sound S) (genuine : m.heap.Genuine w)
    (proper : ∀ u, t = some u → m.types.Proper u) : Safe S (coerce w t) m fun w m' => m'.heap.Genuine w := by
  cases t with
  | none =>
    simp only [Safe, coerce, ends_bind, ends_get]
    generalize m.limits.coerceDepth - m.depth = budget
    cases budget <;> exact ⟨trivial, .refl sound.valid, sound⟩
  | some t =>
    have leads : m.Leads ((coerce w (some t)).after m) := (Machine.Offers.coerce genuine (proper t rfl)).leads
    refine (ends_after (coerce_faithful sound.valid genuine (proper t rfl))).mono ?_ ?_
    · rintro w' _ ⟨rfl, coerced⟩
      exact ⟨(coerced.evolves.alters .importing).sound sound leads, coerced.genuine genuine⟩
    · rintro f _ ⟨rfl, raised, evolves⟩
      exact ⟨raised.fair, (evolves.alters .importing).sound sound leads⟩

/-- Building types only adds to the store. -/
theorem safe_build {act : TypeBuilder α} {mid : α → TypeStore → Prop} (sound : m.Sound S)
    (additive : act.Additive m.types) (result : Act.Ends act m.types mid fun _ _ => True) :
    Safe S (build act) m fun a m' => mid a m'.types := by
  have kept {types : TypeStore} (grown : m.types.Grows types) :
      m.Grows { m with types := types } ∧ Machine.Sound S { m with types := types } := by
    have extended : m.types.Extends types := .of_grows grown sound.valid.names
    have grows : m.Grows { m with types := types } := (Machine.Offers.declare extended).leads.grows sound.valid
    refine ⟨grows, sound.grown grows (sound.valid.extend extended) sound.args sound.lastReturn fun missing found => ?_⟩
    rw [show ({ m with types := types } : Machine).heap.get? _ = _ from missing] at found
    cases found
  unfold TypeBuilder.Additive Act.Ends at additive
  unfold Act.Ends at result
  unfold Safe Ends build
  cases built : act m.types with
  | ok a types =>
    rw [built] at additive result
    exact ⟨kept additive, result⟩
  | error e types =>
    rw [built] at additive
    exact ⟨additive.1, kept additive.2⟩

theorem safe_resolve (sound : m.Sound S) (prop : PropRef) : Safe S (resolve prop) m fun _ _ => True :=
  safe_build sound (TypeBuilder.resolve_additive prop) .trivial

theorem safe_getNamed (sound : m.Sound S) (object : m.heap.Genuine obj) (name : String) :
    Safe S (getNamed obj name) m fun w m' => m'.heap.Genuine w :=
  (safe_resolve sound (.name name)).bind fun id _ grows sound' _ =>
    (reads_getProp sound'.valid (grows.genuine object) id).safe_word sound'

theorem safe_setNamed (sound : m.Sound S) (object : m.heap.Genuine obj) (genuine : m.heap.Genuine w) (name : String) :
    Safe S (setNamed obj name w) m fun _ _ => True :=
  (safe_resolve sound (.name name)).bind fun id _ grows sound' _ =>
    (works_setProp sound'.valid (grows.genuine object) (grows.genuine genuine) id).safe sound'
      (.setProp (grows.genuine object) (grows.genuine genuine) id)

theorem safe_accessBox {t : Child} (sound : m.Sound S) (box : m.heap.Genuine obj)
    (proper : ∀ u, t = some u → m.types.Proper u) : Safe S (accessBox obj t) m fun w m' => m'.heap.Genuine w := by
  refine ((reads_boxGet sound.valid box).safe_word sound).bind fun w m₁ grows₁ sound₁ genuine => ?_
  refine (safe_coerce sound₁ genuine fun u same => grows₁.proper (proper u same)).bind
    fun converted m₂ grows₂ sound₂ genuine₂ => ?_
  dsimp only
  split
  · have box₂ := (grows₁.trans grows₂).genuine box
    refine ((works_boxSet sound₂.valid box₂ genuine₂).safe sound₂ (.boxSet box₂ genuine₂)).bind
      fun _ m₃ grows₃ sound₃ _ => ?_
    exact .pure sound₃ (grows₃.genuine genuine₂)
  · exact .pure sound₂ genuine₂

theorem safe_mismatch {t : Child} (sound : m.Sound S) (genuine : m.heap.Genuine w) :
    Safe S (mismatch w t : Run α) m ok :=
  ends_mismatch genuine t fun _ => ⟨trivial, sound.flagged⟩

theorem safe_accessInt (sound : m.Sound S) (box : m.heap.Genuine obj) (int : S.base.Proper Prim.int.typeId) :
    Safe S (accessInt obj) m fun _ _ => True := by
  refine (safe_accessBox sound box fun u same => ?_).bind fun w m' _ sound' genuine => ?_
  · cases same
    exact int.extend sound.types
  · refine ((reads_decode genuine).safe sound').bind fun v m'' grows sound'' _ => ?_
    cases v with
    | int n => exact .pure sound'' trivial
    | _ => exact safe_mismatch sound'' (grows.genuine genuine)

theorem safe_pushArg (sound : m.Sound S) (genuine : m.heap.Genuine w) : Safe S (pushArg w) m fun _ _ => True := by
  have ends : Ends (pushArg w) m (fun _ m' => m' = { m with args := w :: m.args })
      fun f m' => f.Fair m' ∧ m' = { m with dirty := true } := by
    simp only [pushArg, ends_bind, ends_get]
    split
    · exact ⟨trivial, rfl⟩
    · rfl
  refine (ends_after ends).mono ?_ ?_
  · rintro _ _ ⟨here, rfl⟩
    have leads := here ▸ (Machine.Offers.pushArg w).leads
    exact ⟨sound.restack leads rfl rfl (List.forall_mem_cons.2 ⟨genuine, sound.args⟩) sound.lastReturn, trivial⟩
  · rintro f _ ⟨_, fair, rfl⟩
    exact ⟨fair, sound.flagged⟩

theorem safe_popArg (sound : m.Sound S) : Safe S popArg m fun w m' => m'.heap.Genuine w := by
  have ends : Ends popArg m (fun w m' => ∃ rest, m.args = w :: rest ∧ m' = { m with args := rest })
      fun f m' => f.Fair m' ∧ m' = { m with dirty := true } := by
    simp only [popArg, ends_bind, ends_get]
    split
    next => exact ⟨trivial, rfl⟩
    next w rest stack => exact ⟨rest, stack, rfl⟩
  refine (ends_after ends).mono ?_ ?_
  · rintro w _ ⟨here, rest, stack, rfl⟩
    have leads := here ▸ Machine.Offers.popArg.leads
    have genuine := sound.args
    rw [stack] at genuine
    obtain ⟨top, below⟩ := List.forall_mem_cons.1 genuine
    exact ⟨sound.restack leads rfl rfl below sound.lastReturn, top⟩
  · rintro f _ ⟨_, fair, rfl⟩
    exact ⟨fair, sound.flagged⟩

theorem safe_clearArgs (sound : m.Sound S) : Safe S clearArgs m fun _ _ => True :=
  ⟨sound.restack Machine.Offers.clearArgs.leads rfl rfl (List.forall_mem_nil _) sound.lastReturn, trivial⟩

theorem safe_setReturn (sound : m.Sound S) (genuine : m.heap.Genuine w) : Safe S (setReturn w) m fun _ _ => True :=
  ⟨sound.restack (Machine.Offers.setReturn w).leads rfl rfl sound.args genuine, trivial⟩

theorem safe_dropArgs (sound : m.Sound S) (height : Nat) : Safe S (dropArgs height) m fun _ _ => True :=
  ⟨sound.recover height m.depth, trivial⟩

theorem safe_pushCall {recv : Word} {args : List Word} (sound : m.Sound S) (receiver : m.heap.Genuine recv)
    (genuine : ∀ w ∈ args, m.heap.Genuine w) : Safe S (pushCall recv args) m fun _ _ => True := by
  refine (Safe.forM sound fun w member m' grows sound' => ?_).bind fun _ m' grows sound' _ => ?_
  · exact safe_pushArg sound' (grows.genuine (genuine w (List.mem_reverse.1 member)))
  · exact safe_pushArg sound' (grows.genuine receiver)

end Run

end Gradual
