import Gradual.Machine.Inspect
import Gradual.Proofs.Machine.Sound

/-!
A sound machine can be looked at: whatever a record holds can be shown, and nothing is changed by it.
-/
namespace Gradual.Run

variable {α β : Type} {S : Setting} {m : Machine} {w obj : Word} {ref : Ref} {r : Record}

theorem reads_shown (genuine : m.heap.Genuine w) : Reads (shown w) m fun _ => True :=
  (reads_decode genuine).bind fun _ _ => .pure trivial

theorem reads_mapM_shown {ws : List Word} (genuine : ∀ w ∈ ws, m.heap.Genuine w) :
    Reads (ws.mapM shown) m fun _ => True :=
  .mapM fun w member => reads_shown (genuine w member)

theorem reads_recordAt (found : m.heap.get? ref = some r) : Reads (recordAt ref) m fun x => x = r := by
  rw [Reads, ends_recordAt found]
  exact ⟨rfl, rfl⟩

theorem reads_shownRef (leads : ∃ r, m.heap.get? ref = some r) : Reads (shownRef ref) m fun _ => True := by
  obtain ⟨r, found⟩ := leads
  exact (reads_recordAt found).bind fun _ _ => .pure trivial

theorem reads_format (t : Child) : Reads (format t) m fun _ => True := ⟨rfl, trivial⟩

theorem reads_onSome {f : α → Run β} {a : Option α} (each : ∀ x, a = some x → Reads (f x) m fun _ => True) :
    Reads (onSome f a) m fun _ => True := by
  cases a with
  | none => exact .pure trivial
  | some x => exact (each x rfl).bind fun _ _ => .pure trivial

theorem reads_arrayState {d : Deque} (holds : d.Holds m.heap) : Reads (arrayState d) m fun _ => True := by
  refine (reads_mapM_shown fun w member => ?_).bind fun _ _ => .pure trivial
  obtain ⟨i, _, rfl⟩ := List.mem_map.1 member
  exact holds.2 i

theorem reads_slotState {slots : Array Slot}
    (genuine : ∀ (i : Nat) (w : Word), slots[i]? = some (.here w) → m.heap.Genuine w) :
    Reads (slotState slots) m fun _ => True := by
  refine (Reads.mapM fun slot member => ?_).bind fun _ _ => .pure trivial
  cases slot with
  | here w =>
    obtain ⟨i, same⟩ := List.mem_iff_getElem?.1 member
    exact reads_shown (genuine i w (by simpa using same))
  | forward owner index => exact .pure trivial

theorem reads_storeState {s : PropertyStore} (placed : s.Placed)
    (genuine : ∀ name w, s.get? name = some w → m.heap.Genuine w) :
    Reads (storeState s) m fun _ => True := by
  refine .mapM fun (key, w) member => ?_
  have listed : (key, w) ∈ s.table.toList := (List.mergeSort_perm ..).mem_iff.1 member
  exact (reads_shown (genuine key w (placed.get?_of_mem listed))).bind fun _ _ => .pure trivial

theorem reads_codeState {code : Code} {tag : Child} {Runs : Body → Prop} (coded : m.Coded Runs tag code) :
    Reads (codeState code) m fun _ => True := by
  have captured {env : Option (List Word)} (genuine : ∀ w ∈ env.getD [], m.heap.Genuine w) :
      Reads (onSome (·.mapM shown) env) m fun _ => True :=
    reads_onSome fun ws same => reads_mapM_shown fun w member => genuine w (by rw [same]; exact member)
  cases coded with
  | typed _ _ _ _ genuine => exact (captured genuine).bind fun _ _ => .pure trivial
  | untyped _ genuine => exact (captured genuine).bind fun _ _ => .pure trivial
  | importing _ imports =>
    obtain ⟨_, r, _, _, found, _⟩ := imports
    exact (reads_shownRef ⟨r, found⟩).bind fun _ _ => (reads_format _).bind fun _ _ => .pure trivial
  | exporting found =>
    exact (reads_shownRef ⟨_, found⟩).bind fun _ _ => (reads_format _).bind fun _ _ => .pure trivial

theorem reads_recordState (sound : m.Sound S) (found : m.heap.get? ref = some r) :
    Reads (recordState ref r) m fun _ => True := by
  have record := sound.valid.records found
  refine (reads_onSome fun t _ => reads_format _).bind fun _ _ => ?_
  refine (reads_onSome fun q link => reads_shownRef (sound.valid.linked found link)).bind fun _ _ => ?_
  refine (reads_onSome fun slots here => reads_slotState fun i w at_i => ?_).bind fun _ _ => ?_
  · refine record.slots i w ?_
    split at here
    next body =>
      cases here
      rw [Record.slots, body]
      exact at_i
    · cases here
  refine (reads_onSome fun d dyn => reads_storeState (record.store d dyn) fun name w at_name => ?_).bind fun _ _ => ?_
  · refine record.entries name w ?_
    rw [Record.dynGet?, dyn]
    exact at_name
  refine (reads_onSome fun code has_code => reads_codeState (sound.closures found has_code)).bind fun _ _ => ?_
  refine (reads_onSome fun q link => reads_shownRef (record.prototype q link)).bind fun _ _ => ?_
  refine (reads_onSome fun d elems => reads_arrayState (record.elems d elems)).bind fun _ _ => ?_
  refine (reads_onSome fun w cell => reads_shown ?_).bind fun _ _ => .pure trivial
  split at cell
  · cases cell
    exact record.cell
  · cases cell

theorem reads_dump (sound : m.Sound S) (genuine : m.heap.Genuine w) : Reads (dump w) m fun _ => True := by
  refine (reads_record? genuine).bind fun x leads => ?_
  exact reads_onSome fun (ref, r) same => reads_recordState sound (leads ref r same)

theorem reads_dumpAll (sound : m.Sound S) : Reads dumpAll m fun _ => True := by
  refine (ends_bind ..).2 (Reads.mapM fun ref member => ?_)
  obtain ⟨issued, below⟩ := List.mem_range'_1.1 member
  obtain ⟨r, found⟩ := Heap.get?_isSome issued (Nat.lt_one_add_iff.1 below)
  refine (reads_recordAt found).bind fun x same => ?_
  subst same
  exact reads_recordState sound found

end Gradual.Run
