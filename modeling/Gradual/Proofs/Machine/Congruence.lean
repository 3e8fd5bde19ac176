import Gradual.Machine.Call
import Gradual.Machine.Inspect

/-!
Operations on the heap as compositions. All of them are made of a few basic actions that read and change heap and
types, ask the checker, count coercions or fail. So what holds of the basic ones, and survives sequence and
nesting, holds of every operation: `Run.Congruence` lists what is to be shown. It is a relation between two actions
because the parts of a value may be coerced with more levels of nesting on the right than on the left; for all
else both sides are the same (`Congruence.Self`).
-/
namespace Gradual

def Machine.withStore (m n : Machine) : Machine := { n with heap := m.heap, types := m.types, hash := m.hash }

def Machine.withStack (m n : Machine) : Machine := { n with args := m.args, lastReturn := m.lastReturn }

namespace Run

/-- A relation between actions that is kept by all ways to compose operations on the heap. -/
structure Congruence (R : {α : Type} → Run α → Run α → Prop) : Prop where
  pure : ∀ {α : Type} (a : α), R (pure a) (pure a)
  bind : ∀ {α β : Type} {act act' : Run β} {next next' : β → Run α}, R act act' → (∀ b, R (next b) (next' b)) →
    R (act >>= next) (act' >>= next')
  violate : ∀ {α : Type} (v : Violation), R (violate v : Run α) (violate v)
  misuse : ∀ {α : Type} (e : Misuse), R (misuse e : Run α) (misuse e)
  broken : ∀ {α : Type}, R (broken : Run α) broken
  /-- What is read of the machine are heap, types and hash. -/
  get : ∀ {α : Type} {next next' : Machine → Run α}, (∀ m n, next (m.withStore n) = next m) →
    (∀ m n, next' (m.withStore n) = next' m) → (∀ m, R (next m) (next' m)) → R (get >>= next) (get >>= next')
  build : ∀ {α : Type} (b : TypeBuilder α), R (build b) (build b)
  updateRecord : ∀ (ref : Ref) (f : Record → Record), R (updateRecord ref f) (updateRecord ref f)
  allocate : ∀ r : Record, R (allocate r) (allocate r)
  setReturn : ∀ w : Word, R (setReturn w) (setReturn w)
  newObject : ∀ n : Int, R (newObject n) (newObject n)
  verdict : ∀ (rel : Relation) (a b : Child), R (verdict rel a b) (verdict rel a b)
  nested : ∀ {α : Type} {act act' : Run α}, R act act' → R (nested act) (nested act')
  /-- No level of nesting is left. -/
  spent : ∀ (t : TypeId) (w : Word) (act : Run Word), R (coerceWithin 0 w (some t)) act
  /-- The limits say how many levels there are. -/
  enter : ∀ (w : Word) (t : Child),
    (∀ b b', b ≤ b' → R (coerceWithin b w t) (coerceWithin b' w t)) → R (coerce w t) (coerce w t)

namespace Congruence

variable {α β ι : Type} {R : {α : Type} → Run α → Run α → Prop} (c : Congruence @R)

abbrev Self (_ : Congruence @R) (act : Run α) : Prop := R act act

include c

/-- Nothing comes after a violation. -/
theorem violate_bind (v : Violation) (next : β → Run α) : c.Self (Run.violate v >>= next) := c.violate v

theorem reads {next : Machine → Run α} (same : ∀ m n, next (m.withStore n) = next m) (each : ∀ m, c.Self (next m)) :
    c.Self (MonadState.get >>= next) :=
  c.get same same each

theorem discard {act : Run β} (self : c.Self act) : c.Self (discard act) := by
  change c.Self (Function.const β PUnit.unit <$> act)
  rw [map_eq_pure_bind]
  exact c.bind self fun _ => c.pure _

theorem forM {f f' : ι → Run PUnit} (each : ∀ x, R (f x) (f' x)) (xs : List ι) : R (xs.forM f) (xs.forM f') := by
  induction xs with
  | nil => exact c.pure _
  | cons x xs ih => exact c.bind (each x) fun _ => ih

theorem mapM {f : ι → Run α} (each : ∀ x, c.Self (f x)) (xs : List ι) : c.Self (xs.mapM f) := by
  induction xs with
  | nil => exact c.pure _
  | cons x xs ih =>
    rw [List.mapM_cons]
    exact c.bind (each x) fun _ => c.bind ih fun _ => c.pure _

/-- A check before the rest. -/
theorem guard {p : Prop} [Decidable p] {stop : Run PUnit} {next next' : PUnit → Run α} (fault : c.Self stop)
    (rest : R (next ⟨⟩) (next' ⟨⟩)) :
    R (if p then stop >>= next else next ⟨⟩) (if p then stop >>= next' else next' ⟨⟩) := by
  split
  · exact c.bind fault fun _ => rest
  · exact rest

theorem decode (w : Word) : c.Self (Run.decode w) := by
  unfold Run.decode
  split
  · exact c.pure _
  · exact c.misuse _

theorem asInt (w : Word) : c.Self (Run.asInt w) := by
  refine c.bind (c.decode w) fun v => ?_
  split
  · exact c.pure _
  · exact c.misuse _

theorem node (t : TypeId) : c.Self (Run.node t) := c.reads (fun _ _ => rfl) fun _ => c.pure _

theorem format (t : Child) : c.Self (Run.format t) := c.reads (fun _ _ => rfl) fun _ => c.pure _

theorem recordAt (ref : Ref) : c.Self (Run.recordAt ref) := by
  refine c.reads (fun _ _ => rfl) fun m => ?_
  split
  · exact c.pure _
  · exact c.misuse _

theorem record (w : Word) : c.Self (Run.record w) := by
  refine c.bind (c.decode w) fun v => ?_
  split
  · exact c.bind (c.recordAt _) fun _ => c.pure _
  · exact c.misuse _

theorem record? (w : Word) : c.Self (Run.record? w) := by
  refine c.bind (c.decode w) fun v => ?_
  split
  · exact c.bind (c.recordAt _) fun _ => c.pure _
  · exact c.pure _

theorem propName (id : PropId) : c.Self (Run.propName id) := by
  refine c.reads (fun _ _ => rfl) fun m => ?_
  dsimp only
  split
  · exact c.misuse _
  · exact c.pure _

theorem describe (w : Word) : c.Self (Run.describe w) := by
  refine c.bind (c.record? w) fun found => ?_
  split
  · exact c.bind (c.decode w) fun _ => c.pure _
  · refine c.bind (c.decode w) fun v => ?_
    split
    · exact c.pure _
    · exact c.bind (c.format _) fun _ => c.pure _

theorem mismatch (w : Word) (t : Child) : c.Self (Run.mismatch w t : Run α) :=
  c.bind (c.describe w) fun _ => c.bind (c.format t) fun _ => c.violate _

theorem propRecord (operation : String) (obj : Word) : c.Self (Run.propRecord operation obj) := by
  refine c.bind (c.decode obj) fun v => ?_
  split
  · exact c.bind (c.recordAt _) fun _ => c.pure _
  · exact c.bind (c.recordAt _) fun _ => c.pure _
  · exact c.violate _

theorem readSlot (r : Record) (i : Nat) : c.Self (Run.readSlot r i) := by
  refine c.reads (fun _ _ => rfl) fun m => ?_
  split
  · exact c.pure _
  · exact c.broken

theorem lookupOwn (r : Record) (id : PropId) : c.Self (Run.lookupOwn r id) := by
  unfold Run.lookupOwn
  split
  · exact c.bind (c.readSlot r _) fun _ => c.pure _
  · split
    · exact c.bind (c.propName id) fun _ => c.pure _
    · exact c.pure _

theorem lookupAlong (id : PropId) (refs : List Ref) : c.Self (Run.lookupAlong id refs) := by
  induction refs with
  | nil => exact c.pure _
  | cons ref rest ih =>
    refine c.bind (c.recordAt ref) fun r => c.bind (c.lookupOwn r id) fun own => ?_
    split
    · exact c.pure _
    · exact ih

theorem getProp (obj : Word) (id : PropId) : c.Self (Run.getProp obj id) :=
  c.bind (c.propRecord _ obj) fun _ => c.reads (fun _ _ => rfl) fun _ => c.lookupAlong id _

theorem openStore (ref : Ref) : c.Self (Run.openStore ref) :=
  c.reads (fun _ _ => rfl) fun _ => c.updateRecord ref _

theorem setProp (obj : Word) (id : PropId) (w : Word) : c.Self (Run.setProp obj id w) := by
  refine c.bind (c.decode w) fun v => c.guard (c.misuse _) (c.bind (c.propRecord _ obj) fun (ref, r) => ?_)
  dsimp only
  split
  · split
    · exact c.updateRecord _ _
    · exact c.broken
  · exact c.bind (c.openStore ref) fun _ => c.bind (c.propName id) fun _ => c.updateRecord ref _

theorem resolve (prop : PropRef) : c.Self (Run.resolve prop) := c.build _

theorem getNamed (obj : Word) (name : String) : c.Self (Run.getNamed obj name) :=
  c.bind (c.build _) fun _ => c.getProp obj _

theorem setNamed (obj : Word) (name : String) (w : Word) : c.Self (Run.setNamed obj name w) :=
  c.bind (c.build _) fun _ => c.setProp obj _ w

theorem hasOwn (obj : Word) (id : PropId) : c.Self (Run.hasOwn obj id) :=
  c.bind (c.propRecord _ obj) fun _ => c.bind (c.lookupOwn _ id) fun _ => c.pure _

theorem deleteProp (obj : Word) (id : PropId) : c.Self (Run.deleteProp obj id) := by
  refine c.bind (c.propRecord _ obj) fun (ref, r) => ?_
  dsimp only
  split
  · exact c.pure _
  · exact c.bind (c.propName id) fun _ => c.bind (c.updateRecord _ _) fun _ => c.pure _

theorem ownKeys (obj : Word) : c.Self (Run.ownKeys obj) :=
  c.bind (c.propRecord _ obj) fun _ => c.bind (c.mapM c.propName _) fun _ => c.pure _

theorem setPrototype (obj proto : Word) : c.Self (Run.setPrototype obj proto) := by
  refine c.bind (c.propRecord _ obj) fun (ref, _) => c.bind (c.decode proto) fun v => ?_
  dsimp only
  split
  · exact c.updateRecord _ _
  · refine c.bind (c.propRecord _ proto) fun (target, _) => c.reads (fun _ _ => rfl) fun m => ?_
    dsimp only
    split
    · exact c.bind (c.decode obj) fun _ => c.violate_bind _ _
    · exact c.updateRecord _ _

theorem linkWord (link : Option Ref) : c.Self (Run.linkWord link) := by
  cases link with
  | none => exact c.pure _
  | some ref => exact c.bind (c.recordAt ref) fun _ => c.pure _

theorem prototypeOf (obj : Word) : c.Self (Run.prototypeOf obj) :=
  c.bind (c.propRecord _ obj) fun _ => c.linkWord _

theorem tagOf (w : Word) : c.Self (Run.tagOf w) := c.bind (c.record? w) fun _ => c.pure _

theorem newLiteral (t : TypeId) (values : List Word) : c.Self (Run.newLiteral t values) := by
  refine c.bind (c.node t) fun n => ?_
  split
  · refine c.guard (c.misuse _) ?_
    split
    · exact c.misuse _
    · exact c.allocate _
  · exact c.misuse _

theorem newArray (elems : List Word) : c.Self (Run.newArray elems) := c.allocate _

theorem arrayOf (w : Word) : c.Self (Run.arrayOf w) := by
  refine c.bind (c.decode w) fun v => ?_
  split
  · refine c.bind (c.recordAt _) fun r => ?_
    split
    · exact c.pure _
    · exact c.bind (c.describe w) fun _ => c.violate _
  · exact c.bind (c.describe w) fun _ => c.violate _

theorem setElems (ref : Ref) (d : Deque) : c.Self (Run.setElems ref d) := c.updateRecord _ _

theorem arrayGet (arr : Word) (i : Int64) : c.Self (Run.arrayGet arr i) := c.bind (c.arrayOf arr) fun _ => c.pure _

theorem settle (ref : Ref) (result : Option Deque.Refusal × Deque) : c.Self (Run.settle ref result) := by
  refine c.bind (c.setElems ref result.2) fun _ => ?_
  cases result.1 with
  | none => exact c.pure _
  | some refusal => cases refusal <;> exact c.misuse _

theorem arrayPut (arr : Word) (i : Int64) (w : Word) : c.Self (Run.arrayPut arr i w) :=
  c.bind (c.arrayOf arr) fun _ => c.settle _ _

theorem arrayPush (arr w : Word) : c.Self (Run.arrayPush arr w) :=
  c.bind (c.arrayOf arr) fun _ => c.bind (c.settle _ _) fun _ => c.pure _

theorem arrayUnshift (arr w : Word) : c.Self (Run.arrayUnshift arr w) :=
  c.bind (c.arrayOf arr) fun _ => c.bind (c.settle _ _) fun _ => c.pure _

theorem arrayPop (arr : Word) : c.Self (Run.arrayPop arr) :=
  c.bind (c.arrayOf arr) fun _ => c.bind (c.setElems _ _) fun _ => c.pure _

theorem arrayShift (arr : Word) : c.Self (Run.arrayShift arr) :=
  c.bind (c.arrayOf arr) fun _ => c.bind (c.setElems _ _) fun _ => c.pure _

theorem newString (s : String) : c.Self (Run.newString s) := c.allocate _

theorem stringOf (w : Word) : c.Self (Run.stringOf w) := by
  refine c.bind (c.decode w) fun v => ?_
  split
  · exact c.bind (c.recordAt _) fun _ => c.pure _
  · exact c.misuse _

theorem newBox (w : Word) : c.Self (Run.newBox w) :=
  c.bind (c.decode w) fun _ => c.guard (c.misuse _) (c.allocate _)

theorem boxGet (b : Word) : c.Self (Run.boxGet b) := by
  refine c.bind (c.decode b) fun v => ?_
  split
  · exact c.bind (c.recordAt _) fun _ => c.pure _
  · exact c.misuse _

theorem boxSet (b w : Word) : c.Self (Run.boxSet b w) := by
  refine c.bind (c.decode b) fun v => ?_
  split
  · refine c.bind (c.decode w) fun _ => c.guard (c.misuse _) ?_
    exact c.bind (c.discard (c.recordAt _)) fun _ => c.updateRecord _ _
  · exact c.misuse _

theorem importClosure (ref : Ref) (t : TypeId) (sig : Signature) : c.Self (Run.importClosure ref t sig) := by
  unfold Run.importClosure
  dsimp only
  split
  · exact c.bind (c.format _) fun _ => c.violate_bind _ _
  · exact c.guard c.broken (c.allocate _)

theorem coerceClosure (w : Word) (t : TypeId) (sig : Signature) : c.Self (Run.coerceClosure w t sig) := by
  refine c.bind (c.decode w) fun v => ?_
  split
  · exact c.pure _
  · refine c.bind (c.recordAt _) fun r => ?_
    split
    · split
      · exact c.pure _
      · refine c.bind (c.verdict ..) fun answer => ?_
        split
        · exact c.pure _
        · exact c.mismatch ..
    · exact c.guard (c.mismatch ..) (c.importClosure ..)
  · exact c.mismatch ..

theorem nextSlot (ref : Ref) (name : String) : c.Self (Run.nextSlot ref name) :=
  c.bind (c.recordAt ref) fun _ => c.guard (c.violate _) (c.pure _)

theorem setSlot (ref : Ref) (slot : Nat) (s : Slot) : c.Self (Run.setSlot ref slot s) := by
  refine c.bind (c.recordAt ref) fun r => ?_
  split
  · exact c.updateRecord _ _
  · exact c.broken

theorem install (ref : Ref) (id : PropId) (slot : Nat) : c.Self (Run.install ref id slot) := by
  refine c.bind (c.recordAt ref) fun r => ?_
  split
  · exact c.broken
  · split
    · exact c.misuse _
    · exact c.updateRecord _ _

theorem publish (ref : Ref) : c.Self (Run.publish ref) := c.updateRecord _ _

theorem promises (owner : Record) (p : Property) : c.Self (Run.promises owner p) := by
  unfold Run.promises
  split
  · exact c.pure _
  · split
    · exact c.pure _
    · refine c.bind (c.node _) fun n => ?_
      split
      · exact c.pure _
      · exact c.verdict ..

theorem sameContainer (w : Word) (tag t : TypeId) : c.Self (Run.sameContainer w tag t) := by
  unfold Run.sameContainer
  split
  · exact c.pure _
  · refine c.bind (c.verdict ..) fun answer => ?_
    split
    · exact c.pure _
    · exact c.mismatch ..

section

variable {recur recur' : Recur} (parts : ∀ w t, R (recur w t) (recur' w t))
include parts

theorem coerceSlot (owner : Ref) (slot : Nat) (p : Property) :
    R (Run.coerceSlot recur owner slot p) (Run.coerceSlot recur' owner slot p) := by
  refine c.bind (c.recordAt owner) fun before => c.bind (c.promises before p) fun kept => ?_
  split
  · exact c.pure _
  · refine c.bind (c.readSlot before slot) fun w => c.bind (parts w p.type) fun converted => ?_
    split
    · exact c.pure _
    · refine c.bind (c.recordAt owner) fun after => ?_
      dsimp only
      split
      · exact c.bind (c.propName _) fun _ => c.bind (c.format _) fun _ => c.violate_bind _ _
      · exact c.setSlot ..

theorem inherit (ref : Ref) (p : Property) (name : String) (refs : List Ref) :
    R (Run.inherit recur ref p name refs) (Run.inherit recur' ref p name refs) := by
  induction refs with
  | nil => exact c.pure _
  | cons q rest ih =>
    refine c.bind (c.recordAt q) fun r => ?_
    split
    next slot _ =>
      refine c.bind (c.coerceSlot parts q slot p) fun _ => ?_
      refine c.bind (c.recordAt ref) fun own => c.bind (c.recordAt q) fun rq => ?_
      split
      · exact c.bind (c.nextSlot ref name) fun _ => c.bind (c.publish q) fun _ =>
          c.bind (c.setSlot ..) fun _ => c.bind (c.install ..) fun _ => c.pure _
      · exact c.pure _
    · split
      · exact c.bind (parts _ _) fun _ => c.bind (c.updateRecord _ _) fun _ => c.pure _
      · exact ih

theorem migrateProp (ref : Ref) (p : Property) : R (Run.migrateProp recur ref p) (Run.migrateProp recur' ref p) := by
  refine c.bind (c.propName p.id) fun name => c.bind (c.recordAt ref) fun r => ?_
  have missing : c.Self (do
      Run.violate (.missingProperty (r.value ref).text name (← Run.format p.type)) : Run Unit) :=
    c.bind (c.format _) fun _ => c.violate _
  split
  · exact c.bind (c.nextSlot ref name) fun _ => c.bind (parts _ _) fun _ => c.bind (c.setSlot ..) fun _ =>
      c.bind (c.install ..) fun _ => c.updateRecord _ _
  · split
    · refine c.get (fun _ _ => rfl) (fun _ _ => rfl) fun m => c.bind (c.inherit parts ref p name _) fun found => ?_
      split
      · exact c.pure _
      · exact missing
    · exact missing

theorem migrate (ref : Ref) (t : TypeId) : R (Run.migrate recur ref t) (Run.migrate recur' ref t) :=
  c.bind (c.updateRecord _ _) fun _ => c.bind (c.node t) fun _ =>
    c.bind (c.forM (c.migrateProp parts ref) _) fun _ => c.bind (c.forM (c.migrateProp parts ref) _) fun _ =>
      c.bind (c.updateRecord _ _) fun _ => c.publish ref

theorem coerceObject (w : Word) (t : TypeId) : R (Run.coerceObject recur w t) (Run.coerceObject recur' w t) := by
  refine c.bind (c.decode w) fun v => ?_
  split
  case h_2 ref | h_3 ref =>
    refine c.bind (c.recordAt ref) fun r => ?_
    split
    · split
      · exact c.pure _
      · refine c.bind (c.verdict ..) fun answer => ?_
        split
        · exact c.pure _
        · exact c.mismatch ..
    · exact c.guard (c.mismatch ..) (c.bind (c.migrate parts ref t) fun _ => c.pure _)
  · exact c.pure _
  · exact c.mismatch ..

theorem coerceElem (ref : Ref) (elem : Child) (i : Nat) :
    R (Run.coerceElem recur ref elem i) (Run.coerceElem recur' ref elem i) := by
  refine c.bind (c.recordAt ref) fun r => ?_
  split
  · exact c.broken
  · exact c.bind (parts _ _) fun _ => c.updateRecord _ _

theorem coerceArray (w : Word) (t : TypeId) (elem : Child) :
    R (Run.coerceArray recur w t elem) (Run.coerceArray recur' w t elem) := by
  refine c.bind (c.decode w) fun v => ?_
  split
  · exact c.pure _
  · refine c.bind (c.record? w) fun found => ?_
    split
    · exact c.mismatch ..
    · split
      · exact c.mismatch ..
      · split
        · exact c.sameContainer ..
        · exact c.bind (c.updateRecord _ _) fun _ => c.bind (c.forM (c.coerceElem parts _ elem) _) fun _ => c.pure _

theorem coerceEntry (ref : Ref) (elem : Child) (key : String) :
    R (Run.coerceEntry recur ref elem key) (Run.coerceEntry recur' ref elem key) := by
  refine c.bind (c.recordAt ref) fun r => ?_
  split
  · exact c.pure _
  · exact c.bind (parts _ _) fun _ => c.updateRecord _ _

theorem coerceMap (w : Word) (t : TypeId) (elem : Child) :
    R (Run.coerceMap recur w t elem) (Run.coerceMap recur' w t elem) := by
  refine c.bind (c.decode w) fun v => ?_
  split
  · exact c.pure _
  · refine c.bind (c.recordAt _) fun r => ?_
    dsimp only
    split
    · exact c.sameContainer ..
    · refine c.guard (c.mismatch ..) (c.bind (c.updateRecord _ _) fun _ => ?_)
      exact c.bind (c.forM (c.coerceEntry parts _ elem) _) fun _ => c.pure _
  · exact c.mismatch ..

theorem coerceStep (w : Word) (t : TypeId) : R (Run.coerceStep recur w t) (Run.coerceStep recur' w t) := by
  unfold Run.coerceStep
  split
  · exact c.pure _
  · refine c.bind (c.node t) fun n => ?_
    split
    · exact c.pure _
    · refine c.bind (c.decode w) fun v => ?_
      split
      · exact c.pure _
      · exact c.mismatch ..
    · exact c.coerceClosure ..
    · exact c.coerceObject parts w t
    · exact c.coerceArray parts w t _
    · exact c.coerceMap parts w t _
    · exact c.mismatch ..

end

theorem coerceWithin {budget budget' : Nat} (le : budget ≤ budget') (w : Word) (t : Child) :
    R (Run.coerceWithin budget w t) (Run.coerceWithin budget' w t) := by
  induction budget generalizing budget' w t with
  | zero =>
    cases t with
    | none => cases budget' <;> exact c.misuse _
    | some t => exact c.spent t w _
  | succ budget ih =>
    obtain ⟨rest, rfl⟩ := Nat.exists_eq_add_of_le' (Nat.le_trans (Nat.succ_pos budget) le)
    cases t with
    | none => exact c.misuse _
    | some t => exact c.nested (c.coerceStep (ih (Nat.le_of_succ_le_succ le)) w t)

theorem coerce (w : Word) (t : Child) : c.Self (Run.coerce w t) := c.enter w t fun _ _ le => c.coerceWithin le w t

theorem accessBox (box : Word) (t : Child) : c.Self (Run.accessBox box t) :=
  c.bind (c.boxGet box) fun _ => c.bind (c.coerce _ t) fun _ => c.guard (c.boxSet ..) (c.pure _)

theorem accessInt (box : Word) : c.Self (Run.accessInt box) := by
  refine c.bind (c.accessBox box _) fun w => c.bind (c.decode w) fun v => ?_
  split
  · exact c.pure _
  · exact c.mismatch ..

theorem callable (fn : Word) : c.Self (Run.callable fn) := by
  have other : c.Self (do Run.violate (.notCallable (← Run.describe fn)) : Run (Ref × Record × Code)) :=
    c.bind (c.describe fn) fun _ => c.violate _
  refine c.bind (c.decode fn) fun v => ?_
  split
  · refine c.bind (c.recordAt _) fun r => ?_
    split
    · exact c.pure _
    · exact other
  · exact other

theorem signature (t : TypeId) : c.Self (Run.signature t) := by
  refine c.bind (c.node t) fun n => ?_
  split
  · exact c.pure _
  · exact c.broken

theorem wrappedCode (ref : Ref) : c.Self (Run.wrappedCode ref) := by
  refine c.bind (c.recordAt ref) fun r => ?_
  split
  · exact c.pure _
  · exact c.broken

theorem exportClosure (fn : Word) : c.Self (Run.exportClosure fn) := by
  refine c.bind (c.callable fn) fun (ref, r, _) => ?_
  dsimp only
  split
  · exact c.pure _
  · exact c.allocate _

theorem checkTypedCode (t : TypeId) (code : GivenCode) : c.Self (Run.checkTypedCode t code) := by
  cases code with
  | absent | untyped => exact c.misuse _
  | typed arity =>
    refine c.reads (fun _ _ => rfl) fun m => ?_
    dsimp only
    split
    · exact c.misuse _
    · exact c.guard (c.misuse _) (c.pure _)

theorem newClosure (t : Child) (code : GivenCode) (body : Body) (env : Option (List Word)) :
    c.Self (Run.newClosure t code body env) := by
  cases t with
  | none => exact c.misuse _
  | some t =>
    refine c.bind (c.node t) fun n => ?_
    split
    · exact c.misuse _
    · exact c.guard (c.misuse _) (c.bind (c.checkTypedCode t code) fun _ => c.allocate _)

theorem newUntyped (body : Body) (env : Option (List Word)) : c.Self (Run.newUntyped body env) := c.allocate _

theorem prototypeLink (proto : Word) : c.Self (Run.prototypeLink proto) := by
  refine c.bind (c.decode proto) fun v => ?_
  split
  · exact c.pure _
  · exact c.bind (c.propRecord _ proto) fun _ => c.pure _

theorem newConstructor (t : Child) (proto : Word) (code : GivenCode) (body : Body) (env : Option (List Word)) :
    c.Self (Run.newConstructor t proto code body env) := by
  cases t with
  | none =>
    unfold Run.newConstructor
    exact c.guard (c.misuse _) (c.bind (c.prototypeLink proto) fun _ => c.allocate _)
  | some t =>
    refine c.bind (c.node t) fun n => ?_
    split
    · exact c.misuse _
    · refine c.guard (c.misuse _) (c.bind (c.checkTypedCode t code) fun _ => ?_)
      exact c.bind (c.prototypeLink proto) fun _ => c.allocate _

theorem constructorPrototype (fn : Word) : c.Self (Run.constructorPrototype fn) :=
  c.bind (c.callable fn) fun _ => c.linkWord _

theorem shown (w : Word) : c.Self (Run.shown w) := c.bind (c.decode w) fun _ => c.pure _

theorem shownRef (ref : Ref) : c.Self (Run.shownRef ref) := c.bind (c.recordAt ref) fun _ => c.pure _

theorem onSome {f : α → Run β} (each : ∀ a, c.Self (f a)) (a : Option α) : c.Self (Run.onSome f a) := by
  cases a with
  | none => exact c.pure _
  | some a => exact c.bind (each a) fun _ => c.pure _

theorem arrayState (d : Deque) : c.Self (Run.arrayState d) := c.bind (c.mapM c.shown _) fun _ => c.pure _

theorem shownSlot (s : Slot) : c.Self (Run.shownSlot s) := by
  cases s with
  | here w => exact c.shown w
  | forward owner index => exact c.pure _

theorem slotState (slots : Array Slot) : c.Self (Run.slotState slots) :=
  c.bind (c.mapM c.shownSlot _) fun _ => c.pure _

theorem storeState (s : PropertyStore) : c.Self (Run.storeState s) :=
  c.mapM (fun _ => c.bind (c.shown _) fun _ => c.pure _) _

theorem codeState (code : Code) : c.Self (Run.codeState code) := by
  cases code with
  | typed | untyped => exact c.bind (c.onSome (fun ws => c.mapM c.shown ws) _) fun _ => c.pure _
  | importing | exporting => exact c.bind (c.shownRef _) fun _ => c.bind (c.format _) fun _ => c.pure _

theorem recordState (ref : Ref) (r : Record) : c.Self (Run.recordState ref r) :=
  c.bind (c.onSome (fun t => c.format (some t)) _) fun _ => c.bind (c.onSome c.shownRef _) fun _ =>
    c.bind (c.onSome c.slotState _) fun _ => c.bind (c.onSome c.storeState _) fun _ =>
      c.bind (c.onSome c.codeState _) fun _ => c.bind (c.onSome c.shownRef _) fun _ =>
        c.bind (c.onSome c.arrayState _) fun _ => c.bind (c.onSome c.shown _) fun _ => c.pure _

theorem dump (w : Word) : c.Self (Run.dump w) :=
  c.bind (c.record? w) fun _ => c.onSome (fun (ref, r) => c.recordState ref r) _

theorem dumpAll : c.Self Run.dumpAll :=
  c.reads (fun _ _ => rfl) fun _ => c.mapM (fun ref => c.bind (c.recordAt ref) fun r => c.recordState ref r) _

theorem sameLayout (a b : Word) : c.Self (Run.sameLayout a b) := by
  refine c.bind (c.record? a) fun x => c.bind (c.record? b) fun y => ?_
  split
  · exact c.pure _
  · exact c.broken

end Congruence

/-- What is to be shown of actions that use the argument stack too, given that it holds of operations on the heap. -/
structure Calling (R : {α : Type} → Run α → Run α → Prop) (Q : {α : Type} → Run α → Prop) : Prop where
  operations : Congruence @R
  quiet : ∀ {α : Type} {act : Run α}, R act act → Q act
  bind : ∀ {α β : Type} {act : Run β} {next : β → Run α}, Q act → (∀ b, Q (next b)) → Q (act >>= next)
  /-- What is read of the machine are the stack and the last return. -/
  get : ∀ {α : Type} {next : Machine → Run α}, (∀ m n, next (m.withStack n) = next m) → (∀ m, Q (next m)) →
    Q (get >>= next)
  exhausted : ∀ {α : Type}, Q (throw .exhausted : Run α)
  pushArg : ∀ w : Word, Q (pushArg w)
  popArg : Q popArg
  dropArgs : ∀ height : Nat, Q (dropArgs height)

namespace Calling

variable {α β ι : Type} {R : {α : Type} → Run α → Run α → Prop} {Q : {α : Type} → Run α → Prop}
  (c : Calling @R @Q) {host : Host} {fuel : Nat}

structure Bodies (_ : Calling @R @Q) (host : Host) : Prop where
  typed : ∀ body env recv args, Q (host.typed body env recv args)
  untyped : ∀ body env, Q (host.untyped body env)

structure Calls (_ : Calling @R @Q) (host : Host) (fuel : Nat) : Prop where
  invoke : ∀ code recv args, Q (invoke host fuel code recv args)
  runUntyped : ∀ code, Q (runUntyped host fuel code)
  callOnStack : ∀ code recv args, Q (callOnStack host fuel code recv args)
  enterTyped : ∀ r code, Q (enterTyped host fuel r code)

include c

theorem pure (a : α) : Q (pure a) := c.quiet (c.operations.pure a)

theorem broken : Q (Run.broken : Run α) := c.quiet c.operations.broken

theorem coerce (w : Word) (t : Child) : Q (Run.coerce w t) := c.quiet (c.operations.coerce w t)

theorem setReturn (w : Word) : Q (Run.setReturn w) := c.quiet (c.operations.setReturn w)

theorem discard {act : Run β} (composed : Q act) : Q (discard act) := by
  change Q (Function.const β PUnit.unit <$> act)
  rw [map_eq_pure_bind]
  exact c.bind composed fun _ => c.pure _

theorem guard {p : Prop} [Decidable p] {stop : Run PUnit} {next : PUnit → Run α} (fault : Q stop)
    (rest : Q (next ⟨⟩)) : Q (if p then stop >>= next else next ⟨⟩) := by
  split
  · exact c.bind fault fun _ => rest
  · exact rest

theorem forM {f : ι → Run PUnit} (each : ∀ x, Q (f x)) (xs : List ι) : Q (xs.forM f) := by
  induction xs with
  | nil => exact c.pure _
  | cons x xs ih => exact c.bind (each x) fun _ => ih

theorem pushCall (recv : Word) (args : List Word) : Q (Run.pushCall recv args) :=
  c.bind (c.forM c.pushArg _) fun _ => c.pushArg recv

theorem popCoerced (ts : List Child) : Q (Run.popCoerced ts) := by
  induction ts with
  | nil => exact c.pure _
  | cons t rest ih => exact c.bind c.popArg fun w => c.bind (c.coerce w t) fun _ => c.bind ih fun _ => c.pure _

theorem popReceiver (sig : Signature) : Q (Run.popReceiver sig) := by
  refine c.bind c.popArg fun recv => ?_
  split
  · exact c.pure _
  · exact c.coerce _ _

theorem invoke (bodies : c.Bodies host) (calls : c.Calls host fuel) (code : Code) (recv : Word) (args : List Word) :
    Q (Run.invoke host (fuel + 1) code recv args) := by
  cases code with
  | typed arity body env =>
    simp only [Run.invoke]
    exact c.guard c.broken (bodies.typed body env recv args)
  | importing arity wrapped t =>
    simp only [Run.invoke]
    refine c.guard c.broken (c.bind (c.quiet (c.operations.wrappedCode wrapped)) fun found => ?_)
    exact c.bind (calls.callOnStack found.2 recv args) fun result =>
      c.bind (c.quiet (c.operations.signature t)) fun _ => c.coerce _ _
  | untyped body env => exact c.broken
  | exporting wrapped t => exact c.broken

theorem runUntyped (bodies : c.Bodies host) (calls : c.Calls host fuel) (code : Code) :
    Q (Run.runUntyped host (fuel + 1) code) := by
  cases code with
  | untyped body env => exact bodies.untyped body env
  | exporting wrapped t =>
    exact c.bind (c.quiet (c.operations.wrappedCode wrapped)) fun (r, code) =>
      c.bind (calls.enterTyped r code) fun w => c.setReturn w
  | typed arity body env => exact c.broken
  | importing arity wrapped t => exact c.broken

theorem callOnStack (calls : c.Calls host fuel) (code : Code) (recv : Word) (args : List Word) :
    Q (Run.callOnStack host (fuel + 1) code recv args) :=
  c.get (fun _ _ => rfl) fun _ => c.bind (c.pushCall recv args) fun _ => c.bind (c.setReturn _) fun _ =>
    c.bind (calls.runUntyped code) fun _ => c.bind (c.dropArgs _) fun _ => c.get (fun _ _ => rfl) fun _ => c.pure _

theorem enterTyped (calls : c.Calls host fuel) (r : Record) (code : Code) :
    Q (Run.enterTyped host (fuel + 1) r code) := by
  simp only [Run.enterTyped]
  split
  · exact c.broken
  · exact c.bind (c.quiet (c.operations.signature _)) fun sig => c.bind (c.popReceiver sig) fun recv =>
      c.bind (c.popCoerced sig.explicit) fun args => calls.invoke code recv args

theorem calls (bodies : c.Bodies host) (fuel : Nat) : c.Calls host fuel := by
  induction fuel with
  | zero => exact ⟨fun _ _ _ => c.exhausted, fun _ => c.exhausted, fun _ _ _ => c.exhausted, fun _ _ => c.exhausted⟩
  | succ fuel ih => exact ⟨c.invoke bodies ih, c.runUntyped bodies ih, c.callOnStack ih, c.enterTyped ih⟩

theorem callRecord (bodies : c.Bodies host) (ref : Ref) (r : Record) (code : Code) (recv : Word)
    (args : List Word) : Q (Run.callRecord host fuel ref r code recv args) := by
  have calls := c.calls bodies fuel
  unfold Run.callRecord
  split
  · exact calls.callOnStack code recv args
  · split
    · exact c.quiet (c.operations.bind (c.operations.describe _) fun _ => c.operations.violate_bind _ _)
    · exact calls.invoke code recv args

theorem call (bodies : c.Bodies host) (fn recv : Word) (args : List Word) : Q (Run.call host fuel fn recv args) :=
  c.bind (c.quiet (c.operations.callable fn)) fun (ref, r, code) => c.callRecord bodies ref r code recv args

theorem callUntyped (bodies : c.Bodies host) (fn : Word) : Q (Run.callUntyped host fuel fn) := by
  have calls := c.calls bodies fuel
  refine c.bind (c.quiet (c.operations.callable fn)) fun (_, r, code) => ?_
  dsimp only
  split
  · exact c.bind (c.setReturn _) fun _ => calls.runUntyped code
  · exact c.bind (calls.enterTyped r code) fun w => c.setReturn w

theorem callWith (bodies : c.Bodies host) (fn recv : Word) (args : List Word) :
    Q (Run.callWith host fuel fn recv args) :=
  c.get (fun _ _ => rfl) fun _ => c.bind (c.pushCall recv args) fun _ => c.bind (c.callUntyped bodies fn) fun _ =>
    c.bind (c.dropArgs _) fun _ => c.get (fun _ _ => rfl) fun _ => c.pure _

theorem construct (bodies : c.Bodies host) (ctor : Word) (args : List Word) :
    Q (Run.construct host fuel ctor args) := by
  refine c.bind (c.quiet (c.operations.callable ctor)) fun (ref, r, code) => ?_
  dsimp only
  split
  · exact c.quiet (c.operations.bind (c.operations.describe _) fun _ => c.operations.violate_bind _ _)
  · refine c.bind (c.quiet (c.operations.newObject 0)) fun obj => ?_
    refine c.bind (c.quiet (c.operations.record obj)) fun (objRef, _) => ?_
    refine c.bind (c.quiet (c.operations.updateRecord ..)) fun _ => ?_
    refine c.bind (c.discard (c.callRecord bodies ref r code obj args)) fun _ => ?_
    split
    · exact c.pure _
    · refine c.bind (c.quiet (c.operations.node _)) fun n => ?_
      split
      · exact c.pure _
      · refine c.bind (c.quiet (c.operations.node _)) fun n => ?_
        split
        · exact c.bind (c.discard (c.coerce ..)) fun _ => c.pure _
        · exact c.pure _

end Calling

end Run

end Gradual
