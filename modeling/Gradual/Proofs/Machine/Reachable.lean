import Gradual.Proofs.Coercion.Descent
import Gradual.Proofs.Machine.Operations

/-!
The states a host can bring a machine to. From an empty heap it applies operations to values that the
machine has given it and to proper types, adds types and names as it goes, and goes on after faults.
Every state it reaches is valid, and what `Machine.Persists` says is never taken back.
-/
namespace Gradual

namespace TypeStore

variable {s s' : TypeStore}

/-- Types and names are only added: proper types and issued names stay what they are. -/
structure Extends (s s' : TypeStore) : Prop where
  nodes : ∀ t, s.Proper t → s'.graph.node t = s.graph.node t
  names : ∀ id, s.names.name id ≠ "" → s'.names.name id = s.names.name id
  distinct : s'.names.names.toList.Nodup

/-- Types that refer to nothing but each other are proper if their nodes are. -/
theorem Proper.of_closed {t : TypeId} (ts : List TypeId)
    (closed : ∀ t ∈ ts, (s.graph.node t).WellFormed ∧ (∀ p ∈ (s.graph.node t).props, s.names.name p.id ≠ "") ∧
      ∀ u ∈ s.graph.children t, u ∈ ts) (member : t ∈ ts) : s.Proper t := by
  intro u path
  have inside : u ∈ ts := by
    induction path with
    | refl => exact member
    | tail _ edge ih => exact (closed _ ih).2.2 _ edge
  exact ⟨(closed u inside).1, (closed u inside).2.1⟩

theorem Proper.extend {t : TypeId} (proper : s.Proper t) (grown : s.Extends s') : s'.Proper t := by
  intro u path
  -- along the path the types are proper in the old store, so their nodes are the same in both
  have old : s.Proper u := by
    induction path with
    | refl => exact proper
    | @tail x y _ edge ih =>
      refine ih.child ?_
      rwa [Graph.children, grown.nodes x ih] at edge
  rw [grown.nodes u old]
  refine ⟨old.wellFormed.node, fun p member => ?_⟩
  rw [grown.names p.id (old.named p member)]
  exact old.named p member

namespace Extends

variable {s'' : TypeStore}

theorem refl (distinct : s.names.names.toList.Nodup) : s.Extends s := ⟨fun _ _ => rfl, fun _ _ => rfl, distinct⟩

theorem trans (first : s.Extends s') (second : s'.Extends s'') : s.Extends s'' where
  nodes t proper := (second.nodes t (proper.extend first)).trans (first.nodes t proper)
  names id named := by
    have same := first.names id named
    exact (second.names id (same ▸ named)).trans same
  distinct := second.distinct

theorem of_grows (grown : s.Grows s') (distinct : s.names.names.toList.Nodup) : s.Extends s' where
  nodes t proper := grown.nodes t (Graph.lt_size_of_wellFormed proper.wellFormed.node)
  names id named := grown.names id (NameTable.lt_size_of_name named)
  distinct := grown.distinct distinct

end Extends

end TypeStore

theorem Machine.Valid.extend {m : Machine} {types : TypeStore} (valid : m.Valid) (grown : m.types.Extends types) :
    Machine.Valid { m with types := types } where
  names := grown.distinct
  room := valid.room
  records found := by
    have old := valid.records found
    refine { old with tagged := fun t tag => ?_, named := fun slot => ?_ }
    · obtain ⟨proper, suits⟩ := old.tagged t tag
      exact ⟨proper.extend grown, by rwa [show ({ m with types := types } : Machine).types.graph.node t = _ from
        grown.nodes t proper]⟩
    · have named := old.named slot
      rwa [show ({ m with types := types } : Machine).types.names.name _ = _ from grown.names _ named]
  chains := valid.chains
  forwarding := valid.forwarding
  aligned := valid.aligned

namespace Machine

variable {m m' m'' : Machine}

/-- What no operation takes back: limits and oracle, types, and of the records their kinds and tags, and closures
as a whole. -/
structure Persists (m m' : Machine) : Prop where
  limits : m'.limits = m.limits
  oracle : m'.oracle = m.oracle
  types : m.types.Extends m'.types
  records : ∀ {ref : Ref} {r : Record}, m.heap.get? ref = some r → ∃ r', m'.heap.get? ref = some r' ∧ r.Keeps r'

namespace Persists

/-- Nothing has changed that counts. -/
theorem of_eq (valid : m.Valid) (limits : m'.limits = m.limits) (oracle : m'.oracle = m.oracle)
    (types : m'.types = m.types) (heap : m'.heap = m.heap) : m.Persists m' where
  limits := limits
  oracle := oracle
  types := by
    rw [types]
    exact .refl valid.names
  records {_ r} found := ⟨r, heap ▸ found, .refl r⟩

theorem trans (first : m.Persists m') (second : m'.Persists m'') : m.Persists m'' where
  limits := second.limits.trans first.limits
  oracle := second.oracle.trans first.oracle
  types := first.types.trans second.types
  records found := by
    obtain ⟨r', found', keeps⟩ := first.records found
    obtain ⟨r'', found'', keeps'⟩ := second.records found'
    exact ⟨r'', found'', keeps.trans keeps'⟩

theorem genuine {w : Word} (persists : m.Persists m') (genuine : m.heap.Genuine w) : m'.heap.Genuine w := by
  refine genuine.transfer fun ref r found => ?_
  obtain ⟨r', found', keeps⟩ := persists.records found
  exact ⟨r', found', keeps.kind⟩

theorem allGenuine {ws : List Word} (persists : m.Persists m') (genuine : ∀ w ∈ ws, m.heap.Genuine w) :
    ∀ w ∈ ws, m'.heap.Genuine w :=
  fun w member => persists.genuine (genuine w member)

theorem proper {t : TypeId} (persists : m.Persists m') (proper : m.types.Proper t) : m'.types.Proper t :=
  proper.extend persists.types

end Persists

theorem Alters.persists {New : Child → Code → Prop} (alters : m.Alters New m') (valid : m.Valid) : m.Persists m' where
  limits := by rw [alters.frame]
  oracle := by rw [alters.frame]
  types := by
    rw [alters.types]
    exact .refl valid.names
  records := alters.records

/-- The closures that a coercion makes are wrappers around untyped ones. -/
theorem Evolves.alters {New : Child → Code → Prop} {base : Nat} {free : Option Ref} (evolves : m.Evolves base free m')
    (new : ∀ {n old t}, m'.types.Proper t → m'.Imports n old t → New (some t) (.importing n old t)) :
    m.Alters New m' where
  valid := evolves.valid
  frame := evolves.frame
  records found := by
    obtain ⟨r', found', record⟩ := evolves.records found
    exact ⟨r', found', record.kind, record.tag, record.of_callable⟩
  closures {ref r code} missing found has_code := by
    have above : m.heap.size < ref := by
      by_contra inside
      obtain ⟨_, old⟩ := Heap.get?_isSome (Heap.get?_bounds found).1 (Nat.le_of_not_lt inside)
      rw [missing] at old
      cases old
    obtain ⟨old, n, t, body, tag⟩ := evolves.fresh above found
    rw [Record.code?, body] at has_code
    cases has_code
    rw [tag]
    exact new ((evolves.valid.records found).tagged t tag).1 (evolves.imports above found body)

theorem Evolves.persists {base : Nat} {free : Option Ref} (evolves : m.Evolves base free m') (valid : m.Valid) :
    m.Persists m' := by
  have alters : m.Alters (fun _ _ => True) m' := evolves.alters fun _ _ => trivial
  exact alters.persists valid

/-- The code of a closure that has a type takes as many arguments as the type says. -/
def Agrees (m : Machine) (tag : Child) (code : Code) : Prop :=
  ∀ t, tag = some t → ∃ sig, m.types.Proper t ∧ m.types.graph.node t = .closure sig ∧
    ∃ arity : Nat, sig.explicitCount = arity ∧ code.arity? = some arity

def Makes (m m' : Machine) : Prop :=
  ∀ ⦃ref r code⦄, m.heap.get? ref = none → m'.heap.get? ref = some r → r.code? = some code → m'.Agrees r.tag code

theorem Agrees.persists {tag : Child} {code : Code} (agrees : m.Agrees tag code) (persists : m.Persists m') :
    m'.Agrees tag code := by
  intro t tagged
  obtain ⟨sig, proper, shape, arity⟩ := agrees t tagged
  exact ⟨sig, persists.proper proper, (persists.types.nodes t proper).trans shape, arity⟩

theorem Agrees.untagged (m : Machine) (code : Code) : m.Agrees none code := nofun

theorem Agrees.typed {u : TypeId} {sig : Signature} {arity : Nat} (proper : m.types.Proper u)
    (shape : m.types.graph.node u = .closure sig) (count : sig.explicitCount = arity) (body : Body)
    (env : Option (List Word)) : m.Agrees (some u) (.typed arity body env) := by
  intro t same
  cases same
  exact ⟨sig, proper, shape, arity, count, rfl⟩

theorem Agrees.importing {n : Nat} {old : Ref} {u : TypeId} (proper : m.types.Proper u) (imports : m.Imports n old u) :
    m.Agrees (some u) (.importing n old u) := by
  intro t same
  cases same
  obtain ⟨sig, _, shape, count, _⟩ := imports
  exact ⟨sig, proper, shape, n, count, rfl⟩

end Machine

/-- The state after an action, however it ended. -/
def Run.after {α : Type} (act : Run α) (m : Machine) : Machine :=
  match act m with
  | .ok _ m' | .error _ m' => m'

theorem Run.ends_after {α : Type} {act : Run α} {m : Machine} {ok : α → Machine → Prop}
    {err : Fault → Machine → Prop} (ends : act.Ends m ok err) :
    act.Ends m (fun a m' => m' = act.after m ∧ ok a m') fun f m' => m' = act.after m ∧ err f m' := by
  unfold Run.Ends Run.after at *
  cases ended : act m with
  | ok a m' =>
    rw [ended] at ends
    exact ⟨rfl, ends⟩
  | error f m' =>
    rw [ended] at ends
    exact ⟨rfl, ends⟩

/-- What a host can ask of the machine. Operations that only read are left out but for the violations
they report, and so are those made of others: access by name adds the name first, access to a box
coerces what is in it and writes that back, and a call handles the stack, runs a body, which asks for
operations of its own, and coerces. -/
inductive Machine.Offers (m : Machine) : {α : Type} → Run α → Prop where
  | newObject (slots : Int) : m.Offers (Run.newObject slots)
  | newLiteral {t : TypeId} {values : List Word} (proper : m.types.Proper t)
      (genuine : ∀ w ∈ values, m.heap.Genuine w) : m.Offers (Run.newLiteral t values)
  | newArray {elems : List Word} (genuine : ∀ w ∈ elems, m.heap.Genuine w) : m.Offers (Run.newArray elems)
  | newString (s : String) : m.Offers (Run.newString s)
  | newBox {w : Word} (genuine : m.heap.Genuine w) : m.Offers (Run.newBox w)
  | newClosure {t : Child} (proper : ∀ u, t = some u → m.types.Proper u) (code : Run.GivenCode) (body : Body)
      (env : Option (List Word)) : m.Offers (Run.newClosure t code body env)
  | newUntyped (body : Body) (env : Option (List Word)) : m.Offers (Run.newUntyped body env)
  | newConstructor {t : Child} {proto : Word} (proper : ∀ u, t = some u → m.types.Proper u)
      (genuine : m.heap.Genuine proto) (code : Run.GivenCode) (body : Body) (env : Option (List Word)) :
      m.Offers (Run.newConstructor t proto code body env)
  | exportClosure {fn : Word} (genuine : m.heap.Genuine fn) : m.Offers (Run.exportClosure fn)
  | instantiate {ref : Ref} {ctor : Record} (found : m.heap.get? ref = some ctor) : m.Offers (Run.instantiate ctor)
  | setProp {obj w : Word} (object : m.heap.Genuine obj) (genuine : m.heap.Genuine w) (id : PropId) :
      m.Offers (Run.setProp obj id w)
  | deleteProp {obj : Word} (object : m.heap.Genuine obj) (id : PropId) : m.Offers (Run.deleteProp obj id)
  | setPrototype {obj proto : Word} (object : m.heap.Genuine obj) (genuine : m.heap.Genuine proto) :
      m.Offers (Run.setPrototype obj proto)
  | arrayPut {arr w : Word} (array : m.heap.Genuine arr) (genuine : m.heap.Genuine w) (i : Int64) :
      m.Offers (Run.arrayPut arr i w)
  | arrayPush {arr w : Word} (array : m.heap.Genuine arr) (genuine : m.heap.Genuine w) : m.Offers (Run.arrayPush arr w)
  | arrayUnshift {arr w : Word} (array : m.heap.Genuine arr) (genuine : m.heap.Genuine w) :
      m.Offers (Run.arrayUnshift arr w)
  | arrayPop {arr : Word} (array : m.heap.Genuine arr) : m.Offers (Run.arrayPop arr)
  | arrayShift {arr : Word} (array : m.heap.Genuine arr) : m.Offers (Run.arrayShift arr)
  | boxSet {box w : Word} (genuine : m.heap.Genuine box) (value : m.heap.Genuine w) : m.Offers (Run.boxSet box w)
  | coerce {w : Word} {t : TypeId} (genuine : m.heap.Genuine w) (proper : m.types.Proper t) :
      m.Offers (Run.coerce w (some t))
  | pushArg (w : Word) : m.Offers (Run.pushArg w)
  | popArg : m.Offers Run.popArg
  | clearArgs : m.Offers Run.clearArgs
  | setReturn (w : Word) : m.Offers (Run.setReturn w)
  | recover (height depth : Nat) : m.Offers (modify (·.recover height depth) : Run Unit)
  | trace (lines : List String) : m.Offers (modify fun m => { m with trace := lines } : Run Unit)
  | violate (v : Violation) : m.Offers (Run.violate v : Run Unit)
  | declare {types : TypeStore} (grown : m.types.Extends types) :
      m.Offers (modify fun m => { m with types := types } : Run Unit)

namespace Machine

variable {m m' m'' : Machine}

/-- However it ends, an operation leaves a valid machine, takes nothing back and makes closures that agree with their
tags. -/
theorem Offers.effect {α : Type} {act : Run α} (offer : m.Offers act) (valid : m.Valid) :
    (act.after m).Valid ∧ m.Persists (act.after m) ∧ m.Makes (act.after m) := by
  let Done (m' : Machine) : Prop := m'.Valid ∧ m.Persists m' ∧ m.Makes m'
  have done (ends : act.Ends m (fun _ => Done) fun _ => Done) : Done (act.after m) := by
    have here := Run.ends_after ends
    unfold Run.Ends at here
    split at here
    · exact here.1 ▸ here.2
    · exact here.1 ▸ here.2
  have altered {m' : Machine} (alters : m.Alters m.Agrees m') : Done m' := by
    have persists := alters.persists valid
    exact ⟨alters.valid, persists, fun _ _ _ missing found has_code =>
      (alters.closures missing found has_code).persists persists⟩
  have works {ok : α → Machine → Prop} (works : act.Works m.Agrees m ok) : Done (act.after m) :=
    done (works.mono (fun _ _ done => altered done.1) fun _ _ fault => altered fault.2)
  have evolved {m' : Machine} (evolves : m.Evolves m.heap.size none m') : Done m' := by
    have alters : m.Alters m'.Agrees m' := evolves.alters Agrees.importing
    exact ⟨alters.valid, alters.persists valid, fun _ _ _ => alters.closures⟩
  have reframe (n : Machine) (heap : n.heap = m.heap) (types : n.types = m.types) (limits : n.limits = m.limits)
      (oracle : n.oracle = m.oracle) : Done n := by
    refine ⟨valid.reframe heap types, .of_eq valid limits oracle types heap, fun _ _ _ missing found => ?_⟩
    rw [heap, missing] at found
    cases found
  cases offer with
  | newObject slots => exact works (Run.works_newObject valid slots)
  | newLiteral proper genuine => exact works (Run.works_newLiteral valid proper genuine)
  | newArray genuine => exact works (Run.works_newArray valid genuine)
  | newString s => exact works (Run.works_newString valid s)
  | newBox genuine => exact works (Run.works_newBox valid genuine)
  | newClosure proper code body env =>
    exact works (Run.works_newClosure valid proper fun u _ _ same shape count =>
      .typed (proper u same) shape count body env)
  | newUntyped => exact works (Run.works_newUntyped valid (.untagged m _))
  | newConstructor proper genuine code body env =>
    exact works (Run.works_newConstructor valid proper genuine (fun _ => .untagged m _) fun u _ _ same shape count =>
      .typed (proper u same) shape count body env)
  | exportClosure genuine => exact works (Run.works_exportClosure valid genuine fun _ _ _ _ _ _ => .untagged m _)
  | instantiate found => exact works (Run.works_instantiate valid found)
  | setProp object genuine => exact works (Run.works_setProp valid object genuine _)
  | deleteProp object => exact works (Run.works_deleteProp valid object _)
  | setPrototype object genuine => exact works (Run.works_setPrototype valid object genuine)
  | arrayPut array genuine => exact works (Run.works_arrayPut valid array genuine _)
  | arrayPush array genuine => exact works (Run.works_arrayPush valid array genuine)
  | arrayUnshift array genuine => exact works (Run.works_arrayUnshift valid array genuine)
  | arrayPop array => exact works (Run.works_arrayPop valid array)
  | arrayShift array => exact works (Run.works_arrayShift valid array)
  | boxSet genuine value => exact works (Run.works_boxSet valid genuine value)
  | coerce genuine proper =>
    exact done ((Run.ends_coerce valid genuine proper).mono (fun _ _ coerced => evolved coerced.evolves)
      fun _ _ fault => evolved fault.2)
  | pushArg =>
    apply done
    simp only [Run.pushArg, Run.ends_bind, Run.ends_get]
    split <;> exact reframe _ rfl rfl rfl rfl
  | popArg =>
    apply done
    simp only [Run.popArg, Run.ends_bind, Run.ends_get]
    split <;> exact reframe _ rfl rfl rfl rfl
  | declare grown =>
    refine ⟨valid.extend grown, ⟨rfl, rfl, grown, fun {_ r} found => ⟨r, found, .refl r⟩⟩, ?_⟩
    intro _ _ _ missing found
    cases missing.symm.trans found
  | clearArgs | setReturn | recover | trace | violate => exact reframe _ rfl rfl rfl rfl

theorem Offers.persists {α : Type} {act : Run α} (offer : m.Offers act) (valid : m.Valid) :
    (act.after m).Valid ∧ m.Persists (act.after m) :=
  ⟨(offer.effect valid).1, (offer.effect valid).2.1⟩

inductive Leads (m : Machine) : Machine → Prop where
  | refl : Leads m m
  | step {m' : Machine} {α : Type} {act : Run α} (leads : Leads m m') (offer : m'.Offers act) : Leads m (act.after m')

theorem Offers.leads {α : Type} {act : Run α} (offer : m.Offers act) : m.Leads (act.after m) := .step .refl offer

/-- Any violation sets the flag. -/
theorem Leads.flag (m : Machine) : m.Leads { m with dirty := true } := (Offers.violate (.coercionDepth 0)).leads

theorem Leads.trans (first : m.Leads m') (second : m'.Leads m'') : m.Leads m'' := by
  induction second with
  | refl => exact first
  | step _ offer ih => exact .step ih offer

theorem Leads.persists (leads : m.Leads m') (valid : m.Valid) : m'.Valid ∧ m.Persists m' := by
  induction leads with
  | refl => exact ⟨valid, .of_eq valid rfl rfl rfl rfl⟩
  | step _ offer ih =>
    obtain ⟨valid', persists⟩ := offer.persists ih.1
    exact ⟨valid', ih.2.trans persists⟩

inductive Reachable : Machine → Prop where
  | initial (hash : String → UInt64) (limits : Limits) (oracle : Oracle) {types : TypeStore}
      (distinct : types.names.names.toList.Nodup) : Reachable (Machine.initial hash limits oracle types)
  | step {m : Machine} {α : Type} {act : Run α} (reachable : Reachable m) (offer : m.Offers act) :
      Reachable (act.after m)

theorem Reachable.valid (reachable : m.Reachable) : m.Valid := by
  induction reachable with
  | initial hash limits oracle distinct =>
    have empty {ref : Nat} {r : Record} (found : Heap.empty.get? ref = some r) : False := by simp at found
    exact ⟨distinct, Nat.zero_le _, fun found => (empty found).elim, fun found => (empty found).elim,
      ⟨fun _ => 0, ⟨fun found _ => (empty found).elim⟩⟩, fun found => (empty found).elim⟩
  | step _ offer ih => exact (offer.persists ih).1

/-- Every closure agrees with its tag: it did when it was made, and neither code nor tag ever changes. -/
theorem Reachable.agrees (reachable : m.Reachable) {ref : Ref} {r : Record} {code : Code}
    (found : m.heap.get? ref = some r) (has_code : r.code? = some code) : m.Agrees r.tag code := by
  induction reachable generalizing ref r code with
  | initial hash limits oracle distinct => simp [Machine.initial] at found
  | @step m α act reachable offer ih =>
    obtain ⟨_, persists, makes⟩ := offer.effect reachable.valid
    cases old : m.heap.get? ref with
    | none => exact makes old found has_code
    | some r₀ =>
      obtain ⟨_, same, keeps⟩ := persists.records old
      cases found.symm.trans same
      obtain ⟨body, tag⟩ := keeps.closure (keeps.kind ▸ Record.isCallable_iff.2 ⟨code, has_code⟩)
      rw [tag]
      exact (ih old ((Record.code?_congr body).symm.trans has_code)).persists persists

theorem Reachable.leads (reachable : m.Reachable) (leads : m.Leads m') : m'.Reachable := by
  induction leads with
  | refl => exact reachable
  | step _ offer ih => exact .step ih offer

/-- The types `{x: top}` (6), `{readonly x: int}` (7) and `{readonly x: string}` (8). -/
def inheritingTypes : TypeStore :=
  ⟨⟨Graph.primitives.nodes ++ #[.object [⟨0, some 5, false⟩], .object [⟨0, some 0, true⟩],
    .object [⟨0, some 3, true⟩]]⟩, ⟨#["x"]⟩⟩

/-- An object of the first type that holds an int, and an untyped object that inherits from it. -/
def inheriting : Machine :=
  (Run.setPrototype (Word.objectRef 2) (Word.objectRef 1)).after <|
    (Run.newObject 1).after <| (Run.newLiteral 6 [Word.ofInt 5]).after <|
      Machine.initial (fun _ => 0) Limits.default Oracle.silent inheritingTypes

theorem inheriting_proper (t : TypeId) (member : t ∈ [0, 3, 5, 6, 7, 8]) : inheriting.types.Proper t :=
  .of_closed [0, 3, 5, 6, 7, 8] (by decide) member

theorem inheriting_genuine (ref : Ref) (member : ref ∈ [1, 2]) : inheriting.heap.Genuine (Word.objectRef ref) := by
  obtain rfl | rfl : ref = 1 ∨ ref = 2 := by simpa using member
  all_goals exact ⟨_, rfl, fun _ same => by cases same; exact ⟨_, rfl, rfl⟩⟩

theorem inheriting_reachable : inheriting.Reachable := by
  refine .step (.step (.step (.initial _ _ _ (by decide)) (.newLiteral (inheriting_proper 6 (by decide)) ?_))
    (.newObject 1)) (.setPrototype ?_ ?_)
  · intro w member
    cases List.mem_singleton.1 member
    exact ⟨.int 5, rfl, nofun⟩
  all_goals exact ⟨_, rfl, fun _ same => by cases same; exact ⟨_, rfl, rfl⟩⟩

theorem eq_of_size_two {ref : Nat} {r : Record} (two : m.heap.size = 2) (found : m.heap.get? ref = some r) :
    ref = 1 ∨ ref = 2 := by
  have bounds := Heap.get?_bounds found
  omega

theorem inheriting_wellTyped : inheriting.WellTyped := by
  refine Upright.wellTyped ⟨fun {ref r} found => ?_, fun {ref r t} found tag => ?_⟩ inheriting_reachable.valid
  · obtain rfl | rfl := eq_of_size_two rfl found <;> cases found <;> rfl
  · obtain rfl | rfl := eq_of_size_two rfl found <;> cases found <;> cases tag
    intro p member
    cases List.mem_singleton.1 member
    exact ⟨Word.ofInt 5, rfl, 5, rfl, .inr (.inl rfl)⟩

end Machine

end Gradual
