import Gradual.Proofs.Machine.Keys
import Gradual.Proofs.Replay

/-!
Access to properties by their names. A name goes to an id and back to a name before a store is asked, and all objects
share one table of ids, which every access extends. On untyped objects without prototypes this is a map from names to
values for each object, but for one name: the table reads the empty name as that of an id that was never issued, so an
access under it fails as soon as the store has to be asked.
-/
namespace Gradual

def Run.deleteNamed (obj : Word) (name : String) : Run Bool := do deleteProp obj (← intern name)

inductive NamedAccess where
  | get (ref : Ref) (name : String)
  | set (ref : Ref) (name : String) (w : Word)
  | delete (ref : Ref) (name : String)

inductive NamedAnswer where
  | value (w : Word)
  | done
  | removed (found : Bool)
  deriving DecidableEq

namespace NamedAccess

def ref : NamedAccess → Ref
  | get ref _ | set ref _ _ | delete ref _ => ref

def name : NamedAccess → String
  | get _ name | set _ name _ | delete _ name => name

def isSet : NamedAccess → Bool
  | set .. => true
  | get .. | delete .. => false

def act : NamedAccess → Run NamedAnswer
  | get ref name => do return .value (← Run.getNamed (Word.objectRef ref) name)
  | set ref name w => do
    Run.setNamed (Word.objectRef ref) name w
    return .done
  | delete ref name => do return .removed (← Run.deleteNamed (Word.objectRef ref) name)

def step (m : Machine) (a : NamedAccess) : Except Fault NamedAnswer × Machine :=
  match a.act m with
  | .ok answer m' => (.ok answer, m')
  | .error f m' => (.error f, m')

/-- The object is untyped and has no prototype, and what is written is a value but no box. -/
def Fits (m : Machine) (a : NamedAccess) : Prop :=
  (∃ r, m.heap.get? a.ref = some r ∧ r.tag = none ∧ r.proto = none) ∧
    ∀ ref name w, a = set ref name w → ∃ v, w.decode? = some v ∧ v.kind ≠ .box

/-- What the access leaves under a name of an object, none if it leaves it alone. -/
def leaves? (ref : Ref) (name : String) : NamedAccess → Option (Option Word)
  | get _ _ => none
  | set ref' name' w => if ref' = ref ∧ name' = name then some (some w) else none
  | delete ref' name' => if ref' = ref ∧ name' = name then some none else none

/-- The last access that does not leave the name of the object alone decides what is held there. -/
def held (m : Machine) (past : List NamedAccess) (ref : Ref) (name : String) : Option Word :=
  (past.reverse.findSome? (leaves? ref name)).getD ((m.heap.get? ref).bind (·.dynGet? name))

def hasStore (m : Machine) (past : List NamedAccess) (ref : Ref) : Bool :=
  (m.heap.get? ref).any (·.dyn.isSome) || past.any fun a => a.isSet && a.ref == ref

def issued (m : Machine) (past : List NamedAccess) : NameTable :=
  past.foldl (fun t a => (t.intern a.name).1) m.types.names

def answer (held : Option Word) : NamedAccess → NamedAnswer
  | get .. => .value (held.getD Word.undefined)
  | set .. => .done
  | delete .. => .removed held.isSome

/-- The empty name is no name where a store has to be asked. -/
def outcome (t : NameTable) (opened : Bool) (held : Option Word) (a : NamedAccess) : Except Fault NamedAnswer :=
  if a.name = "" ∧ (a.isSet ∨ opened) then .error (.misuse (.unknownProperty (t.intern "").2))
  else .ok (a.answer held)

variable {m : Machine} {past : List NamedAccess} {ref : Ref} {name : String}

theorem held_append (a : NamedAccess) :
    held m (past ++ [a]) ref name = (a.leaves? ref name).getD (held m past ref name) := by
  simp only [held, List.reverse_append, List.reverse_cons, List.reverse_nil, List.nil_append, List.singleton_append,
    List.findSome?_cons]
  cases a.leaves? ref name <;> rfl

theorem hasStore_append (a : NamedAccess) :
    hasStore m (past ++ [a]) ref = (hasStore m past ref || (a.isSet && a.ref == ref)) := by
  simp [hasStore, Bool.or_assoc]

theorem issued_append (first second : List NamedAccess) :
    issued m (first ++ second) = second.foldl (fun t a => (t.intern a.name).1) (issued m first) := by
  simp [issued]

/-- What an access does to the record of its object. A write makes a store whatever the name is. -/
def onRecord (hash : String → UInt64) : NamedAccess → Record → Record
  | get _ _, r => r
  | set _ name w, r => if name = "" then r.withStore hash else (r.withStore hash).dynPut name w
  | delete _ name, r => if name = "" then r else (r.dynErase name).1

end NamedAccess

def Machine.interning (m : Machine) (name : String) : Machine :=
  { m with types := { m.types with names := (m.types.names.intern name).1 } }

theorem Machine.name_interning (m : Machine) (name : String) :
    (m.interning name).types.names.name (m.types.names.intern name).2 = name := m.types.names.name_intern name

namespace Run

variable {m : Machine} {ref : Ref} {r : Record} {id : PropId}

theorem propName_bind_of_empty {α : Type} (unnamed : m.types.names.name id = "") (next : String → Run α) :
    (propName id >>= next) m = .error (.misuse (.unknownProperty id)) m := by
  rw [propName, bind_assoc, get_bind]
  simp only [unnamed, if_true]
  rfl

/-- The store alone answers for a record without a layout and a prototype. -/
theorem getProp_of_plain {obj : Word} (known : obj.decode? = some (.object ref)) (found : m.heap.get? ref = some r)
    (free : r.layout = none) (alone : r.proto = none) (id : PropId) :
    getProp obj id m = if m.types.names.name id = "" ∧ r.dyn.isSome then .error (.misuse (.unknownProperty id)) m
      else .ok ((r.dynGet? (m.types.names.name id)).getD Word.undefined) m := by
  have chain : m.heap.Chain (some ref) [ref] := .cons found (alone ▸ .nil)
  have slot : r.slotOf? id = none := by rw [Record.slotOf?, free, Option.bind_none]
  rw [getProp, propRecord_bind _ (.inl known) found]
  dsimp only
  rw [get_bind, chain.chain_eq, lookupAlong, recordAt_bind found, lookupOwn]
  simp only [slot]
  cases store : r.dyn with
  | none =>
    simp only [Record.dynGet?, store, Option.isSome_none, Bool.false_eq_true, and_false, if_false]
    rfl
  | some d =>
    simp only [Option.isSome_some, and_true, if_true, bind_assoc]
    by_cases unnamed : m.types.names.name id = ""
    · rw [propName_bind_of_empty unnamed, if_pos unnamed]
    · rw [propName_bind unnamed, if_neg unnamed, pure_bind]
      cases r.dynGet? (m.types.names.name id) <;> rfl

theorem openStore_bind {α : Type} (ref : Ref) (next : Unit → Run α) :
    (openStore ref >>= next) m = next () { m with heap := m.heap.update ref (·.withStore m.hash) } := rfl

theorem setProp_of_plain {obj w : Word} {v : Value} (known : obj.decode? = some (.object ref))
    (found : m.heap.get? ref = some r) (free : r.layout = none) (value : w.decode? = some v) (unboxed : v.kind ≠ .box)
    (id : PropId) :
    setProp obj id w m = if m.types.names.name id = "" then .error (.misuse (.unknownProperty id))
        { m with heap := m.heap.update ref (·.withStore m.hash) }
      else .ok ()
        { m with heap := m.heap.update ref fun r => (r.withStore m.hash).dynPut (m.types.names.name id) w } := by
  have slot : r.slotOf? id = none := by rw [Record.slotOf?, free, Option.bind_none]
  rw [setProp, decode_bind value, if_neg unboxed]
  dsimp only
  rw [propRecord_bind _ (.inl known) found]
  simp only [slot]
  rw [openStore_bind]
  by_cases unnamed : m.types.names.name id = ""
  · rw [if_pos unnamed]
    exact propName_bind_of_empty (m := { m with heap := m.heap.update ref (·.withStore m.hash) }) unnamed _
  · have same : (fun r : Record => (r.withStore m.hash).dynPut (m.types.names.name id) w) =
        (·.dynPut (m.types.names.name id) w) ∘ (·.withStore m.hash) := rfl
    rw [if_neg unnamed, same, ← Heap.update_update]
    exact propName_bind (m := { m with heap := m.heap.update ref (·.withStore m.hash) }) unnamed _

theorem deleteProp_of_plain {obj : Word} (known : obj.decode? = some (.object ref)) (found : m.heap.get? ref = some r)
    (free : r.layout = none) (id : PropId) :
    deleteProp obj id m = if m.types.names.name id = "" ∧ r.dyn.isSome then .error (.misuse (.unknownProperty id)) m
      else .ok (r.dynGet? (m.types.names.name id)).isSome
        { m with heap := m.heap.update ref fun r => (r.dynErase (m.types.names.name id)).1 } := by
  have slot : r.slotOf? id = none := by rw [Record.slotOf?, free, Option.bind_none]
  by_cases unnamed : m.types.names.name id = ""
  · rw [deleteProp, propRecord_bind _ (.inl known) found]
    cases store : r.dyn with
    | none =>
      have erased : (r.dynErase (m.types.names.name id)).1 = r := by simp [Record.dynErase, store]
      rw [Heap.update_eq_self found erased]
      simp only [store, Record.dynGet?, Option.isNone_none, Bool.true_or, if_true, Option.isSome_none,
        Bool.false_eq_true, and_false, if_false]
      rfl
    | some d =>
      simp only [store, slot, Option.isNone_some, Option.isSome_none, Bool.or_self, Bool.false_eq_true, if_false]
      rw [propName_bind_of_empty unnamed, if_pos ⟨unnamed, rfl⟩]
  · rw [if_neg fun h => unnamed h.1]
    exact deleteProp_of_store (.inl known) found slot unnamed

theorem getNamed_eq (obj : Word) (name : String) :
    getNamed obj name m = getProp obj (m.types.names.intern name).2 (m.interning name) := rfl

theorem setNamed_eq (obj : Word) (name : String) (w : Word) :
    setNamed obj name w m = setProp obj (m.types.names.intern name).2 w (m.interning name) := rfl

theorem deleteNamed_eq (obj : Word) (name : String) :
    deleteNamed obj name m = deleteProp obj (m.types.names.intern name).2 (m.interning name) := rfl

end Run

namespace NamedAccess

variable {m n : Machine} {past : List NamedAccess} {r : Record}

/-- One access extends the table of names and changes the record of its object only. -/
theorem step_eq {a : NamedAccess} (bounded : a.ref ≤ maxRef) (found : m.heap.get? a.ref = some r)
    (free : r.layout = none) (alone : r.proto = none)
    (value : ∀ ref name w, a = set ref name w → ∃ v, w.decode? = some v ∧ v.kind ≠ .box) :
    step m a = (a.outcome m.types.names r.dyn.isSome (r.dynGet? a.name),
      { m.interning a.name with heap := m.heap.update a.ref (a.onRecord m.hash) }) := by
  have known := Word.objectRef_decode? (Nat.ne_of_gt (Heap.get?_bounds found).1) bounded
  have found : (m.interning a.name).heap.get? a.ref = some r := found
  let id := (m.types.names.intern a.name).2
  cases a with
  | get ref name =>
    have ran := Run.getProp_of_plain known found free alone id
    simp only [id, NamedAccess.name, NamedAccess.ref, Machine.name_interning, ← Run.getNamed_eq] at ran
    have same : m.heap.update ref ((get ref name).onRecord m.hash) = m.heap := Heap.update_eq_self found rfl
    simp only [step, act, outcome, NamedAccess.name, NamedAccess.ref, isSet, same, Bind.bind, EStateM.bind, ran]
    by_cases lost : name = "" ∧ r.dyn.isSome
    · obtain ⟨rfl, opened⟩ := lost
      simp only [opened, and_self, or_true, if_true]
      rfl
    · simp only [lost, Bool.false_eq_true, false_or, if_false]
      rfl
  | set ref name w =>
    obtain ⟨v, value, unboxed⟩ := value ref name w rfl
    have ran := Run.setProp_of_plain known found free value unboxed id
    simp only [id, NamedAccess.name, NamedAccess.ref, Machine.name_interning, ← Run.setNamed_eq] at ran
    simp only [step, act, outcome, NamedAccess.name, NamedAccess.ref, isSet, Bind.bind, EStateM.bind, ran]
    by_cases lost : name = ""
    · subst lost
      have record : (set ref "" w).onRecord m.hash = (·.withStore m.hash) := by
        funext r
        simp only [onRecord, if_true]
      simp only [record, true_or, and_self, if_true]
      rfl
    · have record : (set ref name w).onRecord m.hash = fun r => (r.withStore m.hash).dynPut name w := by
        funext r
        simp only [onRecord, lost, if_false]
      simp only [record, lost, false_and, if_false]
      rfl
  | delete ref name =>
    have ran := Run.deleteProp_of_plain known found free id
    simp only [id, NamedAccess.name, NamedAccess.ref, Machine.name_interning, ← Run.deleteNamed_eq] at ran
    simp only [step, act, outcome, NamedAccess.name, NamedAccess.ref, isSet, Bind.bind, EStateM.bind, ran]
    by_cases lost : name = "" ∧ r.dyn.isSome
    · obtain ⟨rfl, opened⟩ := lost
      have same : m.heap.update ref ((delete ref "").onRecord m.hash) = m.heap := Heap.update_eq_self found rfl
      simp only [opened, same, and_self, or_true, if_true]
      rfl
    · have same : m.heap.update ref ((delete ref name).onRecord m.hash) =
          m.heap.update ref fun r => (r.dynErase name).1 := by
        refine Heap.update_congr found ?_
        by_cases unnamed : name = ""
        · have closed : r.dyn = none := by simpa [unnamed] using lost
          simp [onRecord, unnamed, Record.dynErase, closed]
        · simp [onRecord, unnamed]
      simp only [lost, same, Bool.false_eq_true, false_or, if_false]
      rfl

structure Mirrors (m : Machine) (past : List NamedAccess) (ref : Ref) (r : Record) : Prop where
  free : r.layout = none
  alone : r.proto = none
  store : ∀ d, r.dyn = some d → d.Placed
  opened : r.dyn.isSome = hasStore m past ref
  holds : ∀ name, (name = "" → r.dyn = none) → r.dynGet? name = held m past ref name

theorem Mirrors.other {ref : Ref} {a : NamedAccess} (mirrors : Mirrors m past ref r) (different : a.ref ≠ ref) :
    Mirrors m (past ++ [a]) ref r where
  free := mirrors.free
  alone := mirrors.alone
  store := mirrors.store
  opened := by rw [hasStore_append, beq_false_of_ne different, Bool.and_false, Bool.or_false, mirrors.opened]
  holds name named := by
    have alone : a.leaves? ref name = none := by
      cases a with
      | get => rfl
      | set => exact if_neg fun h => different h.1
      | delete => exact if_neg fun h => different h.1
    rw [held_append, alone, Option.getD_none, mirrors.holds name named]

theorem Mirrors.access {a : NamedAccess} (mirrors : Mirrors m past a.ref r) (hash : String → UInt64) :
    Mirrors m (past ++ [a]) a.ref (a.onRecord hash r) := by
  have kept (read : a.isSet = false) : hasStore m (past ++ [a]) a.ref = hasStore m past a.ref := by
    rw [hasStore_append, read, Bool.false_and, Bool.or_false]
  have made (write : a.isSet = true) : hasStore m (past ++ [a]) a.ref = true := by
    rw [hasStore_append, write, beq_self_eq_true, Bool.and_self, Bool.or_true]
  cases a with
  | get ref name =>
    refine ⟨mirrors.free, mirrors.alone, mirrors.store, mirrors.opened.trans (kept rfl).symm, fun x named => ?_⟩
    rw [held_append]
    exact mirrors.holds x named
  | set ref name w =>
    rw [onRecord]
    split
    next unnamed =>
      refine ⟨mirrors.free, mirrors.alone, Record.withStore_placed hash mirrors.store, (made rfl).symm,
        fun x named => ?_⟩
      have named : x ≠ "" := fun empty => nomatch named empty
      have other : (set ref name w).leaves? ref x = none := if_neg fun h => named (h.2.symm.trans unnamed)
      rw [Record.dynGet?_withStore, held_append, NamedAccess.ref, other]
      exact mirrors.holds x fun empty => (named empty).elim
    next =>
      have placed := Record.dynPut_placed (Record.withStore_placed hash mirrors.store) name w
      refine ⟨mirrors.free, mirrors.alone, placed, (made rfl).symm, fun x named => ?_⟩
      have named : x ≠ "" := fun empty => nomatch named empty
      rw [Record.dynGet?_dynPut_withStore mirrors.store, held_append, mirrors.holds x fun empty => (named empty).elim]
      by_cases same : x = name
      · simp [leaves?, NamedAccess.ref, same]
      · simp [leaves?, NamedAccess.ref, same, Ne.symm same]
  | delete ref name =>
    rw [onRecord]
    split
    next unnamed =>
      refine ⟨mirrors.free, mirrors.alone, mirrors.store, mirrors.opened.trans (kept rfl).symm, fun x closed => ?_⟩
      rw [held_append]
      by_cases same : x = name
      · simp [leaves?, NamedAccess.ref, same, Record.dynGet?, closed (same.trans unnamed)]
      · simp [leaves?, NamedAccess.ref, Ne.symm same, mirrors.holds x closed]
    next =>
      have store := Record.dynErase_isSome (r := r) name
      refine ⟨?_, ?_, Record.dynErase_placed mirrors.store name, ?_, fun x named => ?_⟩
      · rw [Record.dynErase_eq]
        exact mirrors.free
      · rw [Record.dynErase_eq]
        exact mirrors.alone
      · exact store.trans (mirrors.opened.trans (kept rfl).symm)
      · have named : x = "" → r.dyn = none := fun empty => by simpa [named empty] using store
        rw [Record.dynGet?_dynErase mirrors.store, held_append, mirrors.holds x named]
        by_cases same : x = name
        · simp [leaves?, NamedAccess.ref, same]
        · simp [leaves?, NamedAccess.ref, same, Ne.symm same]

structure Follows (m : Machine) (n : Machine) (past : List NamedAccess) : Prop where
  names : n.types.names = issued m past
  objects : ∀ ref r, m.heap.get? ref = some r → r.tag = none → r.proto = none →
    ∃ r', n.heap.get? ref = some r' ∧ Mirrors m past ref r'

theorem Follows.start (valid : m.Valid) : Follows m m [] where
  names := rfl
  objects ref r found untyped alone := by
    have record := valid.records found
    refine ⟨r, found, (record.untagged untyped).1, alone, record.store, ?_, fun name _ => ?_⟩
    · simp [hasStore, found]
    · simp [held, found]

/-- Held values do not matter to a failure. -/
theorem Mirrors.outcome_eq {a : NamedAccess} (mirrors : Mirrors m past a.ref r) (t : NameTable) :
    a.outcome t r.dyn.isSome (r.dynGet? a.name) = a.outcome t (hasStore m past a.ref) (held m past a.ref a.name) := by
  rw [mirrors.opened]
  by_cases lost : a.name = "" ∧ (a.isSet ∨ hasStore m past a.ref)
  · rw [NamedAccess.outcome, NamedAccess.outcome, if_pos lost, if_pos lost]
  · have closed (empty : a.name = "") : r.dyn = none := by
      rw [← mirrors.opened] at lost
      exact (by simpa [empty] using lost : a.isSet = false ∧ r.dyn = none).2
    rw [mirrors.holds a.name closed]

theorem Follows.step {a : NamedAccess} (valid : m.Valid) (follows : Follows m n past) (fits : a.Fits m) :
    (step n a).1 = a.outcome (issued m past) (hasStore m past a.ref) (held m past a.ref a.name) ∧
      Follows m (step n a).2 (past ++ [a]) := by
  obtain ⟨⟨r₀, found₀, untyped, alone⟩, value⟩ := fits
  obtain ⟨r, found, mirrors⟩ := follows.objects a.ref r₀ found₀ untyped alone
  have bounded : a.ref ≤ maxRef := Nat.le_trans (Heap.get?_bounds found₀).2 valid.room
  rw [step_eq bounded found mirrors.free mirrors.alone value]
  refine ⟨?_, ?_, fun ref r₁ found₁ untyped₁ alone₁ => ?_⟩
  · rw [mirrors.outcome_eq, follows.names]
  · rw [issued_append, ← follows.names]
    rfl
  · obtain ⟨r', found', mirrors'⟩ := follows.objects ref r₁ found₁ untyped₁ alone₁
    by_cases same : a.ref = ref
    · subst same
      cases found.symm.trans found'
      exact ⟨_, Heap.get?_update_same found _, mirrors.access n.hash⟩
    · exact ⟨r', (Heap.get?_update_ne (Ne.symm same) _).trans found', mirrors'.other same⟩

theorem Follows.replay {more : List NamedAccess} (valid : m.Valid) (follows : Follows m n past)
    (fits : ∀ a ∈ more, a.Fits m) : Follows m (replay NamedAccess.step more n).2 (past ++ more) := by
  induction more generalizing n past with
  | nil => rwa [List.append_nil]
  | cons a more ih =>
    obtain ⟨here, later⟩ := List.forall_mem_cons.1 fits
    have next := ih (follows.step valid here).2 later
    rwa [List.append_assoc] at next

theorem find?_issued_append {s : String} {id : PropId} (first second : List NamedAccess)
    (found : (issued m first).find? s = some id) : (issued m (first ++ second)).find? s = some id := by
  rw [issued_append]
  generalize issued m first = t at found
  induction second generalizing t with
  | nil => exact found
  | cons a second ih => exact ih _ (NameTable.find?_intern_of_some found a.name)

theorem issued_of_mem {a : NamedAccess} (member : a ∈ past) : ∃ id, (issued m past).find? a.name = some id := by
  obtain ⟨before, later, rfl⟩ := List.append_of_mem member
  have here : (issued m (before ++ [a])).find? a.name = some ((issued m before).intern a.name).2 := by
    rw [issued_append]
    exact NameTable.find?_intern _ _
  exact ⟨_, List.append_cons before a later ▸ find?_issued_append _ later here⟩

theorem issued_size_le (past : List NamedAccess) : (issued m past).size ≤ m.types.names.size + past.length := by
  induction past using List.reverseRecOn with
  | nil => exact Nat.le_refl _
  | append_singleton past a ih =>
    rw [issued_append]
    have := (issued m past).intern_size_le a.name
    simp only [List.foldl_cons, List.foldl_nil, List.length_append, List.length_singleton]
    omega

/-- Access by name to untyped objects without prototypes, in any order and under any names. A read answers with what
was last written under the name on that object and not deleted since, or with what was there at the start, and nothing
fails; but for the empty name, under which a write always fails, and a read or a removal does as soon as the object has
a store, which even a write that fails makes. Ids that are issued stay, every name that was used has one, two names
never share one, and an id leads back to its name. No id is larger than the number of names at the start and of
accesses since, so that ids take 32 bits as long as these are fewer than `2 ^ 32`. -/
theorem replay_refines_maps (reachable : m.Reachable) {next : NamedAccess} (fits : ∀ a ∈ past ++ [next], a.Fits m) :
    let n := (replay step past m).2
    (step n next).1 = next.outcome (issued m past) (hasStore m past next.ref) (held m past next.ref next.name) ∧
      (∀ earlier, earlier <+: past → ∀ s id, (replay step earlier m).2.types.names.find? s = some id →
        n.types.names.find? s = some id) ∧
      (∀ a ∈ past, ∃ id, n.types.names.find? a.name = some id) ∧
      (∀ s s', (n.types.names.intern s).2 = ((n.types.names.intern s).1.intern s').2 → s = s') ∧
      ∀ s, (n.types.names.intern s).1.name (n.types.names.intern s).2 = s ∧
        (n.types.names.intern s).2 ≤ m.types.names.size + past.length := by
  have valid := reachable.valid
  have follows {ops : List NamedAccess} (within : ops <+: past) : Follows m (replay step ops m).2 ops :=
    (Follows.start valid).replay valid fun a member => fits a (List.mem_append_left _ (within.subset member))
  have last := follows List.prefix_rfl
  refine ⟨?_, ?_, ?_, fun s s' => NameTable.eq_of_intern_eq, fun s => ⟨NameTable.name_intern _ s, ?_⟩⟩
  · exact (last.step valid (fits next (List.mem_append_right _ List.mem_cons_self))).1
  · intro earlier within s id found
    obtain ⟨later, rfl⟩ := within
    rw [(follows (List.prefix_append earlier later)).names] at found
    rw [last.names]
    exact find?_issued_append earlier later found
  · intro a member
    rw [last.names]
    exact issued_of_mem member
  · rw [last.names]
    exact (NameTable.intern_id_le _ s).trans (issued_size_le past)

def pair : Machine :=
  (Run.newObject 1).after <| (Run.newObject 1).after <|
    Machine.initial (fun _ => 0) Limits.default Oracle.silent ⟨Graph.primitives, NameTable.empty⟩

theorem pair_reachable : pair.Reachable :=
  .step (.step (.initial _ _ _ (by decide)) (.newObject 1)) (.newObject 1)

/-- Both objects are written to under one name, and one of them under the empty name. -/
def mixed : List NamedAccess :=
  [set 1 "x" (Word.ofInt 5), set 2 "x" (Word.ofInt 6), get 2 "y", delete 2 "x", set 1 "" (Word.ofInt 7)]

theorem mixed_fits {ref : Ref} (object : ref = 1 ∨ ref = 2) (name : String) :
    ∀ a ∈ mixed ++ [get ref name], a.Fits pair := by
  have plain {ref : Ref} (object : ref = 1 ∨ ref = 2) :
      ∃ r, pair.heap.get? ref = some r ∧ r.tag = none ∧ r.proto = none := by
    rcases object with rfl | rfl <;> exact ⟨_, rfl, rfl, rfl⟩
  have int (n : Int32) : ∃ v, (Word.ofInt n).decode? = some v ∧ v.kind ≠ .box :=
    ⟨.int n, Word.ofInt_decode? n, by simp [Value.kind]⟩
  intro a member
  simp only [mixed, List.cons_append, List.nil_append, List.mem_cons, List.not_mem_nil, or_false] at member
  rcases member with rfl | rfl | rfl | rfl | rfl | rfl
  · exact ⟨plain (.inl rfl), by simpa using int 5⟩
  · exact ⟨plain (.inr rfl), by simpa using int 6⟩
  · exact ⟨plain (.inr rfl), by simp⟩
  · exact ⟨plain (.inr rfl), by simp⟩
  · exact ⟨plain (.inl rfl), by simpa using int 7⟩
  · exact ⟨plain object, by simp⟩

theorem issued_mixed : ((issued pair mixed).intern "").2 = 2 := by
  have names : (issued pair mixed).toList = ["x", "y", ""] := NameTable.toList_ofList ["x", "x", "y", "x", ""]
  have found : (issued pair mixed).find? "" = some 2 := by
    rw [NameTable.find?_eq, names]
    rfl
  rw [NameTable.intern, found]

/-- Each object has its own value, and the failed write has made a difference to reads under the empty name only. -/
theorem replay_refines_maps_mixed :
    (step (replay step mixed pair).2 (get 1 "x")).1 = .ok (.value (Word.ofInt 5)) ∧
      (step (replay step mixed pair).2 (get 2 "x")).1 = .ok (.value Word.undefined) ∧
      (step (replay step mixed pair).2 (get 1 "")).1 = .error (.misuse (.unknownProperty 2)) := by
  refine ⟨?_, ?_, ?_⟩
  · exact (replay_refines_maps pair_reachable (mixed_fits (.inl rfl) _)).1
  · exact (replay_refines_maps pair_reachable (mixed_fits (.inr rfl) _)).1
  · rw [← issued_mixed]
    exact (replay_refines_maps pair_reachable (mixed_fits (.inl rfl) _)).1

end NamedAccess

end Gradual
