import Gradual.Proofs.Coercion.Search

/-!
Lack of room. A migration that needs one more slot than the object has ends with a violation that names the object. So a
coercion that ends in this way leaves the object named with all its slots taken, whichever objects it was about.
-/
namespace Gradual

/-- A record is known by its text. -/
theorem Record.text_value_inj {r r' : Record} {x y : Ref} (same : (r.value x).text = (r'.value y).text) : x = y := by
  have digits : Nat.toDigits 10 x = Nat.toDigits 10 y := by
    unfold Record.value at same
    generalize r.kind = kind at same
    generalize r'.kind = kind' at same
    cases kind <;> cases kind' <;> simp [Value.text, ← String.toList_inj] at same
    all_goals exact same
  rw [← Nat.ofDigitChars_ten_toDigits (n := x), digits, Nat.ofDigitChars_ten_toDigits]

def Fault.Grounded (f : Fault) (m : Machine) : Prop :=
  ∀ value slots name, f = .violation (.noRoom value slots name) →
    ∃ ref r, m.heap.get? ref = some r ∧ value = (r.value ref).text ∧ r.slots.size ≤ r.fixedSize

namespace Run

variable {α β ι : Type} {recur : Recur}

def Grounds (act : Run α) : Prop := ∀ m, Ends act m (fun _ _ => True) fun f m' => f.Grounded m'

namespace Grounds

theorem pure (a : α) : Grounds (pure a) := fun _ => trivial

theorem bind {act : Run β} {next : β → Run α} (first : Grounds act) (rest : ∀ b, Grounds (next b)) :
    Grounds (act >>= next) :=
  fun m => (ends_bind ..).2 ((first m).mono (fun b m' _ => rest b m') fun _ _ fault => fault)

theorem get {next : Machine → Run α} (rest : ∀ m, Grounds (next m)) : Grounds (get >>= next) := fun m => rest m m

theorem misuse (e : Misuse) : Grounds (misuse e : Run α) := fun _ _ _ _ same => by cases same

theorem broken : Grounds (broken : Run α) := fun _ _ _ _ same => by cases same

theorem violate {v : Violation} (other : v.reason ≠ .slotBudget) : Grounds (violate v : Run α) := by
  rintro m value slots name same
  cases same
  exact absurd rfl other

/-- A check before the rest. -/
theorem guard {c : Prop} [Decidable c] {act : Run PUnit} {next : PUnit → Run α} (check : Grounds act)
    (rest : Grounds (next ⟨⟩)) : Grounds (if c then act >>= next else next ⟨⟩) := by
  split
  · exact check.bind fun _ => rest
  · exact rest

theorem forM {f : ι → Run PUnit} (each : ∀ x, Grounds (f x)) (xs : List ι) : Grounds (xs.forM f) := by
  induction xs with
  | nil => exact .pure _
  | cons x xs ih => exact (each x).bind fun _ => ih

theorem nested {act : Run α} (inner : Grounds act) : Grounds (nested act) :=
  fun m => ends_nested.2 (inner { m with depth := m.depth + 1 })

end Grounds

theorem grounds_updateRecord (ref : Ref) (f : Record → Record) : Grounds (updateRecord ref f) := fun _ => trivial

theorem grounds_node (t : TypeId) : Grounds (node t) := fun _ => trivial

theorem grounds_format (t : Child) : Grounds (format t) := fun _ => trivial

theorem grounds_decode (w : Word) : Grounds (decode w) := by
  unfold decode
  split
  · exact .pure _
  · exact .misuse _

theorem grounds_recordAt (ref : Ref) : Grounds (recordAt ref) := by
  refine .get fun m => ?_
  split
  · exact .pure _
  · exact .misuse _

theorem grounds_record? (w : Word) : Grounds (record? w) := by
  refine (grounds_decode w).bind fun v => ?_
  split
  · exact (grounds_recordAt _).bind fun _ => .pure _
  · exact .pure _

theorem grounds_propName (id : PropId) : Grounds (propName id) := by
  refine .get fun m => ?_
  dsimp only
  split
  · exact .misuse _
  · exact .pure _

theorem grounds_mismatch (w : Word) (t : Child) : Grounds (mismatch w t : Run α) := by
  have describe : Grounds (describe w) := by
    refine (grounds_record? w).bind fun found => ?_
    split
    · exact (grounds_decode w).bind fun _ => .pure _
    · refine (grounds_decode w).bind fun v => ?_
      split
      · exact .pure _
      · exact (grounds_format _).bind fun _ => .pure _
  exact describe.bind fun _ => (grounds_format t).bind fun _ => .violate nofun

theorem grounds_verdict (rel : Relation) (a b : Child) : Grounds (verdict rel a b) := by
  refine .get fun m => ?_
  split
  · exact .pure _
  · exact .violate nofun
  · exact .misuse _

theorem grounds_allocate (r : Record) : Grounds (allocate r) := by
  refine .get fun m => ?_
  dsimp only
  split
  · exact fun _ => trivial
  · exact .misuse _

theorem grounds_importClosure (ref : Ref) (t : TypeId) (sig : Signature) : Grounds (importClosure ref t sig) := by
  unfold importClosure
  dsimp only
  split
  · refine (grounds_format _).bind fun _ => .bind (.violate nofun) fun _ => ?_
    exact .guard .broken (grounds_allocate _)
  · exact .guard .broken (grounds_allocate _)

theorem grounds_coerceClosure (w : Word) (t : TypeId) (sig : Signature) : Grounds (coerceClosure w t sig) := by
  refine (grounds_decode w).bind fun v => ?_
  split
  · exact .pure _
  · refine (grounds_recordAt _).bind fun r => ?_
    split
    · split
      · exact .pure _
      · refine .bind (grounds_verdict _ _ _) fun _ => ?_
        split
        · exact .pure _
        · exact grounds_mismatch _ _
    · exact .guard (grounds_mismatch _ _) (grounds_importClosure _ _ _)
  · exact grounds_mismatch _ _

/-- The one place where room is asked for. -/
theorem grounds_nextSlot (ref : Ref) (name : String) : Grounds (nextSlot ref name) := by
  intro m
  refine (ends_bind ..).2 ((Ends.and (looks_recordAt ref) (grounds_recordAt ref m)).mono ?_ fun _ _ fault => fault.2)
  rintro r _ ⟨⟨rfl, found⟩, _⟩
  dsimp only
  split
  next full =>
    rintro value slots name same
    cases same
    exact ⟨ref, r, found, rfl, full⟩
  next => trivial

theorem grounds_setSlot (ref : Ref) (i : Nat) (s : Slot) : Grounds (setSlot ref i s) := by
  refine (grounds_recordAt ref).bind fun r => ?_
  split
  · exact grounds_updateRecord _ _
  · exact .broken

theorem grounds_install (ref : Ref) (id : PropId) (slot : Nat) : Grounds (install ref id slot) := by
  refine (grounds_recordAt ref).bind fun r => ?_
  split
  · exact .broken
  · split
    · exact .misuse _
    · exact grounds_updateRecord _ _

theorem grounds_coerceSlot (parts : ∀ w t, Grounds (recur w t)) (owner : Ref) (slot : Nat) (p : Property) :
    Grounds (coerceSlot recur owner slot p) := by
  have promises (r : Record) : Grounds (promises r p) := by
    unfold Run.promises
    split
    · exact .pure _
    · split
      · exact .pure _
      · refine (grounds_node _).bind fun n => ?_
        split
        · exact .pure _
        · exact grounds_verdict _ _ _
  have read (r : Record) : Grounds (readSlot r slot) := by
    refine .get fun m => ?_
    split
    · exact .pure _
    · exact .broken
  refine (grounds_recordAt owner).bind fun before => (promises before).bind fun kept => ?_
  split
  · exact .pure _
  · refine (read before).bind fun w => (parts w p.type).bind fun converted => ?_
    split
    · exact .pure _
    · refine (grounds_recordAt owner).bind fun after => ?_
      dsimp only
      split
      · refine (grounds_propName _).bind fun _ => (grounds_format _).bind fun _ => ?_
        exact .bind (.violate nofun) fun _ => grounds_setSlot _ _ _
      · exact grounds_setSlot _ _ _

theorem grounds_inherit (parts : ∀ w t, Grounds (recur w t)) (ref : Ref) (p : Property) (name : String)
    (refs : List Ref) : Grounds (inherit recur ref p name refs) := by
  induction refs with
  | nil => exact .pure _
  | cons q rest ih =>
    refine (grounds_recordAt q).bind fun r => ?_
    split
    · refine (grounds_coerceSlot parts q _ p).bind fun _ => (grounds_recordAt ref).bind fun own =>
        (grounds_recordAt q).bind fun rq => ?_
      split
      · exact (grounds_nextSlot ref name).bind fun place => (grounds_updateRecord q _).bind fun _ =>
          (grounds_setSlot ref place _).bind fun _ => (grounds_install ref p.id place).bind fun _ => .pure _
      · exact .pure _
    · split
      · exact (parts _ p.type).bind fun _ => (grounds_updateRecord q _).bind fun _ => .pure _
      · exact ih

theorem grounds_migrateProp (parts : ∀ w t, Grounds (recur w t)) (ref : Ref) (p : Property) :
    Grounds (migrateProp recur ref p) := by
  refine (grounds_propName p.id).bind fun name => (grounds_recordAt ref).bind fun r => ?_
  have missing : Grounds (do violate (.missingProperty (r.value ref).text name (← format p.type)) : Run Unit) :=
    (grounds_format _).bind fun _ => .violate nofun
  split
  · exact (grounds_nextSlot ref name).bind fun slot => (parts _ p.type).bind fun _ =>
      (grounds_setSlot ref slot _).bind fun _ => (grounds_install ref p.id slot).bind fun _ =>
        grounds_updateRecord ref _
  · dsimp only
    split
    · refine .get fun m => (grounds_inherit parts ref p name _).bind fun found => ?_
      split
      · exact .pure _
      · exact missing
    · exact missing

theorem grounds_coerceObject (parts : ∀ w t, Grounds (recur w t)) (w : Word) (t : TypeId) :
    Grounds (coerceObject recur w t) := by
  have migrate (ref : Ref) : Grounds (do migrate recur ref t; return w) := by
    refine .bind ?_ fun _ => .pure w
    rw [migrate_eq]
    refine (grounds_updateRecord ref _).bind fun _ => .bind ?_ fun _ => grounds_updateRecord ref _
    exact (grounds_node t).bind fun n => (Grounds.forM (grounds_migrateProp parts ref) _).bind fun _ =>
      .forM (grounds_migrateProp parts ref) _
  refine (grounds_decode w).bind fun v => ?_
  split
  case h_1 => exact .pure _
  case h_4 => exact grounds_mismatch _ _
  case h_2 ref | h_3 ref =>
    refine (grounds_recordAt ref).bind fun r => ?_
    split
    · split
      · exact .pure _
      · refine .bind (grounds_verdict _ _ _) fun _ => ?_
        split
        · exact .pure _
        · exact grounds_mismatch _ _
    · exact .guard (grounds_mismatch _ _) (migrate ref)

theorem grounds_sameContainer (w : Word) (tag t : TypeId) : Grounds (sameContainer w tag t) := by
  unfold sameContainer
  split
  · exact .pure _
  · refine .bind (grounds_verdict _ _ _) fun _ => ?_
    split
    · exact .pure _
    · exact grounds_mismatch _ _

theorem grounds_coerceArray (parts : ∀ w t, Grounds (recur w t)) (w : Word) (t : TypeId) (elem : Child) :
    Grounds (coerceArray recur w t elem) := by
  have each (ref : Ref) (i : Nat) : Grounds (coerceElem recur ref elem i) := by
    refine (grounds_recordAt ref).bind fun r => ?_
    split
    · exact .broken
    · exact (parts _ elem).bind fun _ => grounds_updateRecord ref _
  refine (grounds_decode w).bind fun v => ?_
  split
  · exact .pure _
  · refine (grounds_record? w).bind fun found => ?_
    split
    · exact grounds_mismatch _ _
    · split
      · exact grounds_mismatch _ _
      · split
        · exact grounds_sameContainer _ _ _
        · exact (grounds_updateRecord _ _).bind fun _ => (Grounds.forM (each _) _).bind fun _ => .pure _

theorem grounds_coerceMap (parts : ∀ w t, Grounds (recur w t)) (w : Word) (t : TypeId) (elem : Child) :
    Grounds (coerceMap recur w t elem) := by
  have each (ref : Ref) (key : String) : Grounds (coerceEntry recur ref elem key) := by
    refine (grounds_recordAt ref).bind fun r => ?_
    split
    · exact .pure _
    · exact (parts _ elem).bind fun _ => grounds_updateRecord ref _
  refine (grounds_decode w).bind fun v => ?_
  split
  · exact .pure _
  · refine (grounds_recordAt _).bind fun r => ?_
    dsimp only
    split
    · exact grounds_sameContainer _ _ _
    · refine .guard (grounds_mismatch _ _) ?_
      exact (grounds_updateRecord _ _).bind fun _ => (Grounds.forM (each _) _).bind fun _ => .pure _
  · exact grounds_mismatch _ _

/-- A coercion that ends for lack of room leaves the record full. -/
theorem grounds_coerceWithin (budget : Nat) (w : Word) (t : Child) : Grounds (coerceWithin budget w t) := by
  induction budget generalizing w t with
  | zero =>
    cases t with
    | none => exact .misuse _
    | some t => exact .nested (.get fun _ => .violate nofun)
  | succ budget ih =>
    cases t with
    | none => exact .misuse _
    | some t =>
      refine .nested ?_
      unfold coerceStep
      split
      · exact .pure w
      · refine (grounds_node t).bind fun n => ?_
        split
        · exact .pure w
        · refine (grounds_decode w).bind fun v => ?_
          split
          · exact .pure w
          · exact grounds_mismatch _ _
        · exact grounds_coerceClosure w t _
        · exact grounds_coerceObject ih w t
        · exact grounds_coerceArray ih w t _
        · exact grounds_coerceMap ih w t _
        · exact grounds_mismatch _ _

end Run

end Gradual
