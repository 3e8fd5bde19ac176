import Gradual.Machine.Basic

/-!
How an action ends: with a value or with a fault, and in either case with the state it has reached.
`act.Ends m ok err` says what holds then. One lemma for each way to compose actions carries such a
statement through a `do` block, and one for each basic action of the machine starts it off.
-/
namespace Gradual.Run

variable {α β : Type} {m : Machine} {ok : α → Machine → Prop} {err : Fault → Machine → Prop}

/-- Started in `m`, the action ends with a value as `ok` says or with a fault as `err` says. -/
def Ends (act : Run α) (m : Machine) (ok : α → Machine → Prop) (err : Fault → Machine → Prop) : Prop :=
  match act m with
  | .ok a m' => ok a m'
  | .error f m' => err f m'

theorem Ends.mono {act : Run α} {ok' : α → Machine → Prop} {err' : Fault → Machine → Prop}
    (ends : act.Ends m ok err) (value : ∀ a m', ok a m' → ok' a m') (fault : ∀ f m', err f m' → err' f m') :
    act.Ends m ok' err' := by
  unfold Ends at ends ⊢
  split at ends
  · exact value _ _ ends
  · exact fault _ _ ends

theorem Ends.of_eq {act act' : Run α} (same : act m = act' m) (ends : act'.Ends m ok err) : act.Ends m ok err := by
  unfold Ends at ends ⊢
  rwa [same]

theorem Ends.of_ok {act : Run α} {a : α} {m' : Machine} (ends : act.Ends m ok err) (returned : act m = .ok a m') :
    ok a m' := by
  simpa [Ends, returned] using ends

theorem Ends.and {act : Run α} {ok' : α → Machine → Prop} {err' : Fault → Machine → Prop} (ends : act.Ends m ok err)
    (ends' : act.Ends m ok' err') : act.Ends m (fun a m' => ok a m' ∧ ok' a m') fun f m' => err f m' ∧ err' f m' := by
  unfold Ends at *
  split at ends <;> simp_all

/-- An action that can only end in one way. -/
theorem Ends.eq_ok {act : Run α} {a : α} {m' : Machine}
    (ends : act.Ends m (fun b n => b = a ∧ n = m') fun _ _ => False) : act m = .ok a m' := by
  unfold Ends at ends
  split at ends
  next eq => rw [eq, ends.1, ends.2]
  next => exact ends.elim

@[simp] theorem ends_pure (a : α) : Ends (pure a) m ok err ↔ ok a m := Iff.rfl

@[simp] theorem ends_bind (act : Run β) (next : β → Run α) :
    Ends (act >>= next) m ok err ↔ Ends act m (fun b m' => Ends (next b) m' ok err) err := by
  simp only [Ends, bind, EStateM.bind]
  cases act m <;> rfl

@[simp] theorem ends_map (act : Run β) (f : β → α) :
    Ends (f <$> act) m ok err ↔ Ends act m (fun b m' => ok (f b) m') err := by
  simp only [Ends, Functor.map, EStateM.map]
  cases act m <;> rfl

@[simp] theorem ends_discard (act : Run β) {ok : PUnit → Machine → Prop} :
    Ends (discard act) m ok err ↔ Ends act m (fun _ m' => ok ⟨⟩ m') err :=
  ends_map act (Function.const β PUnit.unit)

@[simp] theorem ends_get {ok : Machine → Machine → Prop} : Ends get m ok err ↔ ok m m := Iff.rfl

@[simp] theorem ends_set {ok : PUnit → Machine → Prop} (m' : Machine) : Ends (set m') m ok err ↔ ok () m' :=
  Iff.rfl

@[simp] theorem ends_modify {ok : PUnit → Machine → Prop} (f : Machine → Machine) :
    Ends (modify f) m ok err ↔ ok () (f m) := Iff.rfl

@[simp] theorem ends_throw (f : Fault) : Ends (throw f : Run α) m ok err ↔ err f m := Iff.rfl

@[simp] theorem ends_violate (v : Violation) :
    Ends (violate v : Run α) m ok err ↔ err (.violation v) { m with dirty := true } := Iff.rfl

@[simp] theorem ends_misuse (e : Misuse) : Ends (misuse e : Run α) m ok err ↔ err (.misuse e) m := Iff.rfl

@[simp] theorem ends_broken : Ends (broken : Run α) m ok err ↔ err .broken m := Iff.rfl

@[simp] theorem ends_node {ok : Node → Machine → Prop} (t : TypeId) :
    Ends (node t) m ok err ↔ ok (m.types.graph.node t) m := Iff.rfl

@[simp] theorem ends_format {ok : String → Machine → Prop} (t : Child) :
    Ends (format t) m ok err ↔ ok (m.format t) m := Iff.rfl

@[simp] theorem ends_updateRecord {ok : Unit → Machine → Prop} (ref : Ref) (f : Record → Record) :
    Ends (updateRecord ref f) m ok err ↔ ok () { m with heap := m.heap.update ref f } := Iff.rfl

theorem ends_decode {ok : Value → Machine → Prop} {w : Word} {v : Value} (known : w.decode? = some v) :
    Ends (decode w) m ok err ↔ ok v m := by
  simp [decode, known]

theorem ends_recordAt {ok : Record → Machine → Prop} {ref : Ref} {r : Record} (found : m.heap.get? ref = some r) :
    Ends (recordAt ref) m ok err ↔ ok r m := by
  simp [recordAt, found]

theorem ends_propName {ok : String → Machine → Prop} {id : PropId} (named : m.types.names.name id ≠ "") :
    Ends (propName id) m ok err ↔ ok (m.types.names.name id) m := by
  simp [propName, named]

theorem ends_allocate {ok : Word → Machine → Prop} (r : Record) : Ends (allocate r) m ok err ↔
    if m.heap.size + 1 ≤ maxRef then ok (r.word (m.heap.size + 1)) { m with heap := m.heap.add r }
    else err (.misuse .handleSpace) m := by
  simp only [allocate, ends_bind, ends_get]
  split <;> simp

/-- A loop over a list keeps an invariant that says how much of the list is done. -/
theorem ends_forM {f : β → Run PUnit} (inv : List β → Machine → Prop) {err : Fault → Machine → Prop} (xs : List β)
    (step : ∀ x rest m', inv (x :: rest) m' → Ends (f x) m' (fun _ m'' => inv rest m'') err) (start : inv xs m) :
    Ends (xs.forM f) m (fun _ m' => inv [] m') err := by
  induction xs generalizing m with
  | nil => simpa using start
  | cons x rest ih =>
    change Ends (f x >>= fun _ => rest.forM f) m _ err
    rw [ends_bind]
    exact (step x rest m start).mono (fun _ m' => ih) fun _ _ h => h

end Gradual.Run
