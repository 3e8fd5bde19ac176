import Gradual.Proofs.Machine.Valid
import Gradual.Proofs.Types.Growth

/-!
What one operation may do. However it ends, the machine is valid, every record has kept its kind and every
closure its code and its tag. If it fails, then by a violation or because the host has not met a
precondition or has asked for more memory than there is: no reference was wrong, no slot out of reach and no
layout closed.
-/
namespace Gradual

def Misuse.Precondition : Misuse → Prop
  | .typeForm e => e.OfForm
  | .word .notInt | .literalType | .literalCount _ _ | .boxWritten | .notString | .nestedBox
  | .readNotBox | .writeNotBox | .nestedBoxWrite | .negativeIndex | .untypedCoercion | .closureType | .typedCode
  | .codeArity _ _ _ | .missingCode | .constructorType | .untypedConstructorCode | .nullOwner => True
  | _ => False

/-- Faults that a host can answer for: violations, preconditions that do not hold, a property without a
name, a request for more memory than there is, a write at the largest index, and running out of handles or of
fuel. -/
def Fault.Fair (f : Fault) (m : Machine) : Prop :=
  match f with
  | .violation _ | .exhausted => True
  | .misuse .handleSpace => maxRef ≤ m.heap.size
  | .misuse (.unknownProperty id) => m.types.names.name id = ""
  | .misuse (.allocation bytes) => maxBytes < bytes
  | .misuse (.overrun i _) => i = Int64.maxValue
  | .misuse e => e.Precondition
  | .broken => False

structure Record.Keeps (r r' : Record) : Prop where
  kind : r'.kind = r.kind
  tag : ∀ t, r.tag = some t → r'.tag = some t
  closure : r.kind.isCallable → r'.body = r.body ∧ r'.tag = r.tag

namespace Record

variable {r r' r'' : Record}

theorem isCallable_iff : r.kind.isCallable ↔ ∃ code, r.code? = some code := by
  unfold kind code?
  cases r.body <;> simp [RecordKind.isCallable]

theorem code?_congr (body : r'.body = r.body) : r'.code? = r.code? := by
  unfold code?
  rw [body]

@[refl] theorem Keeps.refl (r : Record) : r.Keeps r := ⟨rfl, fun _ tag => tag, fun _ => ⟨rfl, rfl⟩⟩

theorem Keeps.trans (first : r.Keeps r') (second : r'.Keeps r'') : r.Keeps r'' where
  kind := second.kind.trans first.kind
  tag t here := second.tag t (first.tag t here)
  closure callable := by
    obtain ⟨body, tag⟩ := first.closure callable
    obtain ⟨body', tag'⟩ := second.closure (first.kind ▸ callable)
    exact ⟨body'.trans body, tag'.trans tag⟩

theorem Refilled.keeps {h : Heap} (refilled : r.Refilled h r') : r.Keeps r' :=
  ⟨refilled.kind, fun _ tag => refilled.tag.trans tag, fun callable => ⟨refilled.closure callable, refilled.tag⟩⟩

end Record

/-- A record is linked to a prototype whose chain does not lead back to it. -/
theorem Machine.Valid.link {m : Machine} {ref : Ref} {r : Record} {f : Record → Record} {proto : Option Ref}
    {l : List Ref} (valid : m.Valid) (found : m.heap.get? ref = some r) (made : f r = { r with proto := proto })
    (chain : m.heap.Chain proto l) (acyclic : ref ∉ l) : Machine.Valid { m with heap := m.heap.update ref f } := by
  have old := valid.records found
  have found' := Heap.get?_update_same found f
  have here : (m.heap.update ref f).Chain (some ref) (ref :: l) := by
    refine .cons found' ?_
    rw [made]
    refine chain.transfer fun x member rx present => ⟨rx, ?_, rfl⟩
    have other : x ≠ ref := fun same => acyclic (same ▸ member)
    rw [Heap.get?_update_ne other, present]
  refine valid.update_linked found ?_ (by rw [made]; rfl) (fun {x rx} present => ?_)
    (fun tagged done => by rw [made]; exact ⟨tagged, done, Nat.le_refl _⟩)
    (fun i q j forward => .inl ⟨i, by rw [made] at forward; exact forward⟩)
    (by rw [made]; exact fun slot => slot) (by rw [made]; exact fun id i q j => valid.aligned found id i q j)
  · rw [made]
    exact ⟨old.slots, old.store, old.entries, old.elems, old.cell, old.prototype, old.tagged, old.untagged,
      fun l here => have laid := old.layout l here; ⟨laid.ids, laid.numbered, laid.fits, laid.published⟩, old.named⟩
  · by_cases same : x = ref
    · rw [same]
      exact ⟨_, here⟩
    · rw [Heap.get?_update_ne same] at present
      obtain ⟨l, chain⟩ := valid.chains present
      exact chain.relink (fun x other => Heap.get?_update_ne other f) here

/-- What an operation does to the machine: heap and flag change, and new closures are as `New` says of
their tag and code. -/
structure Machine.Alters (New : Child → Code → Prop) (m m' : Machine) : Prop where
  valid : m'.Valid
  frame : m' = { m with heap := m'.heap, dirty := m'.dirty }
  records : ∀ {ref : Ref} {r : Record}, m.heap.get? ref = some r → ∃ r', m'.heap.get? ref = some r' ∧ r.Keeps r'
  closures : ∀ {ref : Ref} {r : Record} {code : Code}, m.heap.get? ref = none → m'.heap.get? ref = some r →
    r.code? = some code → New r.tag code

namespace Machine.Alters

variable {New : Child → Code → Prop} {m m' m'' : Machine} {ref : Ref} {r : Record} {f : Record → Record}

theorem refl (valid : m.Valid) : m.Alters New m where
  valid := valid
  frame := rfl
  records {ref r} found := ⟨r, found, .refl r⟩
  closures missing found := by
    rw [missing] at found
    cases found

theorem types (alters : m.Alters New m') : m'.types = m.types := by rw [alters.frame]

theorem genuine (alters : m.Alters New m') {w : Word} (genuine : m.heap.Genuine w) : m'.heap.Genuine w := by
  refine genuine.transfer fun ref r found => ?_
  obtain ⟨r', found', keeps⟩ := alters.records found
  exact ⟨r', found', keeps.kind⟩

theorem flagged (alters : m.Alters New m') (flag : Bool) : m.Alters New { m' with dirty := flag } where
  valid := alters.valid.reframe rfl rfl
  frame := by rw [alters.frame]
  records := alters.records
  closures := alters.closures

/-- A closure that is new in the end was made in the first part or in the second. -/
theorem trans (first : m.Alters New m') (second : m'.Alters New m'') : m.Alters New m'' where
  valid := second.valid
  frame := by rw [second.frame, first.frame]
  records found := by
    obtain ⟨r', found', keeps⟩ := first.records found
    obtain ⟨r'', found'', keeps'⟩ := second.records found'
    exact ⟨r'', found'', keeps.trans keeps'⟩
  closures {ref r'' code} missing found'' has_code := by
    cases mid : m'.heap.get? ref with
    | none => exact second.closures mid found'' has_code
    | some r' =>
      obtain ⟨_, same, keeps⟩ := second.records mid
      cases found''.symm.trans same
      have callable : r'.kind.isCallable := keeps.kind ▸ Record.isCallable_iff.2 ⟨code, has_code⟩
      obtain ⟨body, tag⟩ := keeps.closure callable
      rw [tag]
      exact first.closures missing mid ((Record.code?_congr body).symm.trans has_code)

theorem update (found : m.heap.get? ref = some r) (keeps : r.Keeps (f r))
    (valid : Machine.Valid { m with heap := m.heap.update ref f }) :
    m.Alters New { m with heap := m.heap.update ref f } where
  valid := valid
  frame := rfl
  records {x rx} present := by
    by_cases same : x = ref
    · subst same
      cases found.symm.trans present
      exact ⟨f r, Heap.get?_update_same found f, keeps⟩
    · exact ⟨rx, by rw [Heap.get?_update_ne same, present], .refl rx⟩
  closures {x _ _} missing present := by
    have other : x ≠ ref := by
      rintro rfl
      rw [missing] at found
      cases found
    rw [Heap.get?_update_ne other, missing] at present
    cases present

theorem refill (valid : m.Valid) (found : m.heap.get? ref = some r) (refilled : r.Refilled m.heap (f r)) :
    m.Alters New { m with heap := m.heap.update ref f } :=
  update found refilled.keeps (valid.refill found refilled)

theorem link {proto : Option Ref} {l : List Ref} (valid : m.Valid) (found : m.heap.get? ref = some r)
    (made : f r = { r with proto := proto }) (chain : m.heap.Chain proto l) (acyclic : ref ∉ l) :
    m.Alters New { m with heap := m.heap.update ref f } :=
  update found ⟨by rw [made]; rfl, by rw [made]; exact fun _ tag => tag, fun _ => by rw [made]; exact ⟨rfl, rfl⟩⟩
    (valid.link found made chain acyclic)

theorem add (valid : Machine.Valid { m with heap := m.heap.add r })
    (new : ∀ code, r.code? = some code → New r.tag code) : m.Alters New { m with heap := m.heap.add r } where
  valid := valid
  frame := rfl
  records {x rx} present := ⟨rx, Heap.get?_add_old present r, .refl rx⟩
  closures {x rx code} missing present has_code := by
    rw [Heap.get?_add] at present
    split at present
    · cases present
      exact new code has_code
    · rw [missing] at present
      cases present

end Machine.Alters

/-- The prototype of a record is there. -/
theorem Machine.Valid.linked {m : Machine} (valid : m.Valid) {ref q : Ref} {r : Record}
    (found : m.heap.get? ref = some r) (link : r.proto = some q) : ∃ rq, m.heap.get? q = some rq := by
  obtain ⟨_, chain⟩ := valid.chains found
  cases chain with
  | cons found' links =>
    cases found.symm.trans found'
    rw [link] at links
    cases links with
    | cons at_q _ => exact ⟨_, at_q⟩

/-- The reference to a record of the heap is a value. -/
theorem Machine.Valid.word_genuine {m : Machine} (valid : m.Valid) {ref : Ref} {r : Record}
    (found : m.heap.get? ref = some r) : m.heap.Genuine (r.word ref) := by
  obtain ⟨issued, inside⟩ := Heap.get?_bounds found
  refine ⟨_, r.word_decode? (Nat.ne_of_gt issued) (inside.trans valid.room), fun ref' is_ref => ?_⟩
  have same : ref' = ref := by
    unfold Record.value at is_ref
    cases kind : r.kind <;> simp [kind, Value.ref?] at is_ref <;> exact is_ref.symm
  subst same
  exact ⟨r, found, rfl⟩

namespace Run

variable {α : Type} {New : Child → Code → Prop} {m : Machine} {ok : α → Machine → Prop}

/-- Started in `m`, the operation alters the machine as operations do; it ends with a value as `ok` says
or with a fault that the host can answer for. -/
def Works (New : Child → Code → Prop) (act : Run α) (m : Machine) (ok : α → Machine → Prop) : Prop :=
  Ends act m (fun a m' => m.Alters New m' ∧ ok a m') fun f m' => f.Fair m' ∧ m.Alters New m'

/-- A fault before anything was changed. -/
theorem fair_refl {f : Fault} (valid : m.Valid) (fair : f.Fair m) : f.Fair m ∧ m.Alters New m :=
  ⟨fair, .refl valid⟩

theorem fair_violation (valid : m.Valid) (v : Violation) :
    (Fault.violation v).Fair { m with dirty := true } ∧ m.Alters New { m with dirty := true } :=
  ⟨trivial, (Machine.Alters.refl valid).flagged true⟩

def Reads (act : Run α) (m : Machine) (ok : α → Prop) : Prop :=
  Ends act m (fun a m' => m' = m ∧ ok a) fun f m' => f.Fair m' ∧ (m' = m ∨ m' = { m with dirty := true })

namespace Reads

variable {β : Type} {act : Run β} {mid : β → Prop} {ok : α → Prop}

theorem pure {a : α} (here : ok a) : Reads (pure a) m ok := ⟨rfl, here⟩

theorem bind {next : β → Run α} (first : Reads act m mid) (rest : ∀ b, mid b → Reads (next b) m ok) :
    Reads (act >>= next) m ok := by
  rw [Reads, ends_bind]
  refine first.mono ?_ fun _ _ fault => fault
  rintro b _ ⟨rfl, here⟩
  exact rest b here

theorem mono {ok' : β → Prop} (reads : Reads act m mid) (weaker : ∀ b, mid b → ok' b) : Reads act m ok' :=
  Ends.mono reads (fun _ _ done => ⟨done.1, weaker _ done.2⟩) fun _ _ fault => fault

/-- A list of reads, whatever they read. -/
theorem mapM {ι : Type} {f : ι → Run α} {xs : List ι} (each : ∀ x ∈ xs, Reads (f x) m fun _ => True) :
    Reads (xs.mapM f) m fun _ => True := by
  induction xs with
  | nil => exact .pure trivial
  | cons x xs ih =>
    rw [List.mapM_cons]
    refine (each x List.mem_cons_self).bind fun y _ => ?_
    refine (ih fun x member => each x (List.mem_cons_of_mem _ member)).bind fun ys _ => ?_
    exact .pure trivial

end Reads

end Run

end Gradual
