import Gradual.Proofs.Coercion.Places

/-!
The search for inherited properties, and what becomes of a property that it finds.

A `Run.Search` says how to follow prototype links, and whether a value that was found in a property store has to be
there still when its converted form is written back. `Run.coerceBy` is coercion with such a search. It does what
coercion does, whatever the search makes of links that lead in a circle, because there are none. A watchful search
stops where a value has left the store: then the usual one leaves a property in two places, and it stays there
(`Run.tracks_coerce`).
-/
namespace Gradual

variable {r : Record} {ref : Ref}

namespace Run

structure Search where
  /-- The records from a link on, nearest first. -/
  walk : Heap → Option Ref → List Ref
  /-- Whether a value that is written back has to be still where it was found. -/
  watchful : Bool

/-- The walk finds the whole of a chain that ends. Other links it may follow as it likes. -/
def Search.Complete (s : Search) : Prop := ∀ h start l, Heap.Chain h start l → s.walk h start = l

/-- The usual walk, and a value has to be where it was found when it is written back. -/
def Search.watching : Search := ⟨Heap.chain, true⟩

theorem Search.watching_complete : Search.watching.Complete := fun _ _ _ chain => chain.chain_eq

def Search.writeBack (s : Search) (q : Ref) (name : String) (w : Word) : Run Unit := do
  let lost := (((← get).heap.get? q).bind (·.dynGet? name)).isNone
  if s.watchful && lost then broken
  updateRecord q (·.dynPut name w)

def inheritBy (s : Search) (recur : Recur) (ref : Ref) (p : Property) (name : String) : List Ref → Run Bool
  | [] => return false
  | q :: rest => do
    let r ← recordAt q
    match r.slotOf? p.id with
    | some _ => inherit recur ref p name [q]
    | none =>
      match r.dynGet? name with
      | some w =>
        let converted ← recur w p.type
        s.writeBack q name converted
        return true
      | none => inheritBy s recur ref p name rest

def migratePropBy (s : Search) (recur : Recur) (ref : Ref) (p : Property) : Run Unit := do
  let name ← propName p.id
  let r ← recordAt ref
  if (r.dynGet? name).isNone && p.readOnly then
    if ← inheritBy s recur ref p name (s.walk (← get).heap r.proto) then return
    violate (.missingProperty (r.value ref).text name (← format p.type))
  else migrateProp recur ref p

def forProperties (t : TypeId) (each : Property → Run Unit) : Run Unit := do
  let n ← node t
  n.readWrite.forM each
  n.readOnly.forM each

def migrateEach (each : Property → Run Unit) (ref : Ref) (t : TypeId) : Run Unit := do
  updateRecord ref (·.start ref t)
  forProperties t each
  updateRecord ref (·.finish)

def untypedObject? (w : Word) (t : TypeId) (m : Machine) : Option Ref :=
  match m.types.graph.node t, w.decode? with
  | .object _, some (.object ref) | .object _, some (.closure ref) =>
    (m.heap.get? ref).bind fun r => if r.tag = none ∧ r.kind = .object then some ref else none
  | _, _ => none

def coerceStepBy (s : Search) (recur : Recur) (w : Word) (t : TypeId) : Run Word := do
  match untypedObject? w t (← get) with
  | some ref =>
    migrateEach (migratePropBy s recur ref) ref t
    return w
  | none => coerceStep recur w t

def coerceWithinBy (s : Search) : Nat → Word → Child → Run Word
  | _, _, none => misuse .untypedCoercion
  | 0, _, some _ => nested do violate (.coercionDepth (← get).limits.coerceDepth)
  | budget + 1, w, some t => nested (coerceStepBy s (coerceWithinBy s budget) w t)

/-- Coercion where the search for inherited properties is up to `s`. -/
def coerceBy (s : Search) (w : Word) (t : Child) : Run Word := do
  let m ← get
  coerceWithinBy s (m.limits.coerceDepth - m.depth) w t

variable {α β ι : Type} {s : Search} {m : Machine} {free : Option Ref} {w : Word} {recur recur' : Recur}

def Stops (act : Run α) (m : Machine) : Prop := ∃ m', act m = .error .broken m'

/-- An action has ended in `m'`, and one that is to do the same has done so or has been stopped by the search. -/
def Search.Agrees (s : Search) (m m' : Machine) (same stopped : Prop) : Prop :=
  same ∧ (s.watchful = true → m.Clean m') ∨ s.watchful = true ∧ m'.Displaced ∧ stopped

/-- Started in `m`, the second action does the same as the first unless it is stopped. -/
def Tracks (s : Search) (free : Option Ref) (act act' : Run α) (m : Machine) : Prop :=
  Ends act m
    (fun a m' => m.Tends free m' ∧ m.Quiet m' ∧ s.Agrees m m' (act' m = .ok a m') (act'.Stops m))
    fun f m' => m.Tends free m' ∧ s.Agrees m m' (act' m = .error f m') (act'.Stops m)

theorem Search.Agrees.bind {m' m'' : Machine} {act : Run β} {next : β → Run α} {b : β}
    {res : EStateM.Result Fault Machine α} (types : m'.types = m.types) (stays : m'.Displaced → m''.Displaced)
    (first : s.Agrees m m' (act m = .ok b m') (act.Stops m))
    (second : s.Agrees m' m'' (next b m' = res) ((next b).Stops m')) :
    s.Agrees m m'' ((act >>= next) m = res) ((act >>= next).Stops m) := by
  rcases first with ⟨same, clean⟩ | ⟨watchful, displaced, m₁, stopped⟩
  · have step : (act >>= next) m = next b m' := by simp only [Bind.bind, EStateM.bind, same]
    rcases second with ⟨same', clean'⟩ | ⟨watchful, displaced, m₁, stopped⟩
    · exact .inl ⟨step.trans same', fun watchful => (clean watchful).trans (clean' watchful) types⟩
    · exact .inr ⟨watchful, displaced, m₁, step.trans stopped⟩
  · exact .inr ⟨watchful, stays displaced, m₁, by simp only [Bind.bind, EStateM.bind, stopped]⟩

theorem Search.Agrees.error {m' : Machine} {act : Run β} {next : β → Run α} {f : Fault}
    (agrees : s.Agrees m m' (act m = .error f m') (act.Stops m)) :
    s.Agrees m m' ((act >>= next) m = .error f m') ((act >>= next).Stops m) := by
  rcases agrees with ⟨same, clean⟩ | ⟨watchful, displaced, m₁, stopped⟩
  · exact .inl ⟨by simp only [Bind.bind, EStateM.bind, same], clean⟩
  · exact .inr ⟨watchful, displaced, m₁, by simp only [Bind.bind, EStateM.bind, stopped]⟩

namespace Tracks

variable {act act' : Run α} {next next' : α → Run β}

/-- An action that takes nothing from a search. -/
theorem of_ends (ends : Ends act m (fun _ m' => m.Tends free m' ∧ m.Quiet m' ∧ m.Clean m')
    fun _ m' => m.Tends free m' ∧ m.Clean m') : Tracks s free act act m := by
  unfold Tracks Ends at *
  split at ends
  next done => exact ⟨ends.1, ends.2.1, .inl ⟨done, fun _ => ends.2.2⟩⟩
  next done => exact ⟨ends.1, .inl ⟨done, fun _ => ends.2⟩⟩

theorem of_looks {ok : α → Prop} (looks : Looks act m ok) : Tracks s free act act m := by
  refine of_ends (Ends.mono looks ?_ fun _ _ fault => ⟨.of_eq fault.1 fault.2, .of_eq fault.1⟩)
  rintro a _ ⟨rfl, _⟩
  exact ⟨.of_eq rfl rfl, .of_eq rfl, .of_eq rfl⟩

theorem pure (a : α) : Tracks s free (pure a) (pure a) m := of_looks (Looks.pure trivial : Looks _ m fun _ => True)

theorem stop (fault : Looks act m fun _ => False) : Tracks s free act act m := of_looks fault

theorem congr {act'' : Run α} (tracks : Tracks s free act act' m) (same : act'' m = act' m) :
    Tracks s free act act'' m := by
  unfold Tracks Stops at *
  rwa [same]

theorem congr_left {act'' : Run α} (tracks : Tracks s free act act' m) (same : act'' m = act m) :
    Tracks s free act'' act' m := by
  unfold Tracks Ends at *
  rwa [same]

theorem bind_of_ok (moving : m.Moving free) (first : Tracks s free act act' m)
    (rest : ∀ a m', act m = .ok a m' → m.Tends free m' → m.Quiet m' → Tracks s free (next a) (next' a) m') :
    Tracks s free (act >>= next) (act' >>= next') m := by
  refine (ends_bind ..).2 ?_
  unfold Tracks Ends at first
  unfold Ends
  cases done : act m with
  | error f m' =>
    rw [done] at first
    exact ⟨first.1, first.2.error⟩
  | ok a m' =>
    rw [done] at first
    obtain ⟨tends, quiet, agrees⟩ := first
    have stays {m'' : Machine} (tends' : m'.Tends free m'') : m'.Displaced → m''.Displaced :=
      tends'.displaced (tends.moving moving)
    refine Ends.mono (rest a m' done tends quiet) ?_ ?_
    · rintro b m'' ⟨tends', quiet', agrees'⟩
      exact ⟨tends.trans tends', quiet.trans quiet', agrees.bind tends.types (stays tends') agrees'⟩
    · rintro f m'' ⟨tends', agrees'⟩
      exact ⟨tends.trans tends', agrees.bind tends.types (stays tends') agrees'⟩

theorem bind (moving : m.Moving free) (first : Tracks s free act act' m)
    (rest : ∀ a m', m.Tends free m' → m.Quiet m' → Tracks s free (next a) (next' a) m') :
    Tracks s free (act >>= next) (act' >>= next') m :=
  bind_of_ok moving first fun a m' _ => rest a m'

/-- After an action that only reads nothing has changed. -/
theorem look {mid : α → Prop} (first : Looks act m mid) (rest : ∀ a, mid a → Tracks s free (next a) (next' a) m) :
    Tracks s free (act >>= next) (act >>= next') m := by
  unfold Looks Ends at first
  cases done : act m with
  | ok a m' =>
    rw [done] at first
    obtain ⟨rfl, here⟩ := first
    have step (next : α → Run β) : (act >>= next) m' = next a m' := by simp only [Bind.bind, EStateM.bind, done]
    exact ((rest a here).congr (step next')).congr_left (step next)
  | error f m' =>
    rw [done] at first
    have step (next : α → Run β) : (act >>= next) m = .error f m' := by simp only [Bind.bind, EStateM.bind, done]
    have agrees : s.Agrees m m' ((act >>= next') m = .error f m') ((act >>= next').Stops m) :=
      .inl ⟨step next', fun _ => .of_eq first.1⟩
    unfold Tracks Ends
    rw [step next]
    exact ⟨.of_eq first.1 first.2, agrees⟩

theorem get {next next' : Machine → Run β} (rest : Tracks s free (next m) (next' m) m) :
    Tracks s free (get >>= next) (get >>= next') m := rest

theorem guard {c : Prop} [Decidable c] {act : Run PUnit} {next next' : PUnit → Run β}
    (fault : Looks act m fun _ => False) (rest : ¬c → Tracks s free (next ⟨⟩) (next' ⟨⟩) m) :
    Tracks s free (if c then act >>= next else next ⟨⟩) (if c then act >>= next' else next' ⟨⟩) m := by
  split
  · exact look fault fun _ none => none.elim
  next passed => exact rest passed

theorem forM {f f' : ι → Run PUnit} {P : Machine → Prop} (kept : ∀ m m', m.Tends free m' → P m → P m')
    (moving : m.Moving free) (holds : P m)
    (each : ∀ x m', m'.Moving free → P m' → Tracks s free (f x) (f' x) m') (xs : List ι) :
    Tracks s free (xs.forM f) (xs.forM f') m := by
  induction xs generalizing m with
  | nil => exact .pure _
  | cons x xs ih =>
    refine bind moving (each x m moving holds) fun _ m' tends _ => ?_
    exact ih (tends.moving moving) (kept m m' tends holds)

/-- Both ways to end at once. -/
theorem agrees (tracks : Tracks s free act act' m) : m.Tends free (act.after m) ∧
    s.Agrees m (act.after m) (act' m = act m) (act'.Stops m) := by
  unfold Tracks Ends at tracks
  unfold Run.after
  cases done : act m with
  | ok a m' =>
    rw [done] at tracks
    exact ⟨tracks.1, tracks.2.2⟩
  | error f m' =>
    rw [done] at tracks
    exact tracks

theorem weaken (tracks : Tracks s none act act' m) : Tracks s free act act' m :=
  Ends.mono tracks (fun _ _ done => ⟨done.1.weaken, done.2⟩) fun _ _ fault => ⟨fault.1.weaken, fault.2⟩

theorem nested (inner : Tracks s free act act' { m with depth := m.depth + 1 }) :
    Tracks s free (nested act) (nested act') m := by
  have agrees {m' m'' : Machine} {same stopped same' stopped' : Prop}
      (agrees : s.Agrees { m with depth := m.depth + 1 } m' same stopped) (heap : m''.heap = m'.heap)
      (types : m''.types = m'.types) (holds : same → same') (stops : stopped → stopped') :
      s.Agrees m m'' same' stopped' := by
    rcases agrees with ⟨done, clean⟩ | ⟨watchful, displaced, stopped⟩
    · exact .inl ⟨holds done, fun watchful => by simpa only [Machine.Clean, heap] using clean watchful⟩
    · exact .inr ⟨watchful, by simpa only [Machine.Displaced, heap, types] using displaced, stops stopped⟩
  have stops : act'.Stops { m with depth := m.depth + 1 } → (Run.nested act').Stops m := by
    rintro ⟨m₁, stopped⟩
    exact ⟨_, by simp only [Run.nested, stopped]; rfl⟩
  refine ends_nested.2 (Ends.mono inner ?_ ?_)
  · rintro a m' ⟨tends, quiet, together⟩
    refine ⟨⟨tends.types, tends.records, tends.fresh⟩, quiet, agrees together rfl rfl (fun same => ?_) stops⟩
    simp only [Run.nested, same]
  · rintro f m' ⟨tends, together⟩
    refine ⟨⟨tends.types, tends.records, tends.fresh⟩, agrees together rfl rfl (fun same => ?_) stops⟩
    simp only [Run.nested, same]

end Tracks

theorem tracks_shift {f : Record → Record} (orderly : m.Orderly)
    (shift : ∀ r, m.heap.get? ref = some r → r.Shift m.types.names (f r)) :
    Tracks s free (updateRecord ref f) (updateRecord ref f) m := by
  apply Tracks.of_ends
  refine (ends_updateRecord ..).2 ⟨.update fun r found => ?_, .update fun r found => ?_, .update fun r found id => ?_⟩
  · exact (shift r found).tends (orderly.records found)
  · rw [(shift r found).migrating]
    exact id
  · exact (shift r found).doubled (orderly.records found)

/-- A new closure has neither link nor properties. -/
theorem tracks_allocate (body : RecordBody) (t : TypeId) : Tracks s free
    (allocate { Record.plain body with tag := some t }) (allocate { Record.plain body with tag := some t }) m := by
  refine .of_ends ((ends_allocate _).2 ?_)
  split
  · refine ⟨.add ⟨?_, ?_⟩ rfl, .add rfl, .add rfl⟩
    · intro d here
      cases here
    · intro untagged
      cases untagged
  · exact ⟨.of_eq rfl rfl, .of_eq rfl⟩

theorem tracks_tag (orderly : m.Orderly) (found : m.heap.get? ref = some r) (untagged : r.tag = none) (t : TypeId) :
    Tracks s free (updateRecord ref fun r => { r with tag := some t })
      (updateRecord ref fun r => { r with tag := some t }) m :=
  tracks_shift orderly fun r' found' => by
    cases found.symm.trans found'
    exact .tag t untagged

theorem tracks_setSlot (orderly : m.Orderly) (ref : Ref) (i : Nat) (slot : Slot) :
    Tracks s free (setSlot ref i slot) (setSlot ref i slot) m := by
  refine .look (looks_recordAt ref) fun r _ => ?_
  split
  · exact tracks_shift orderly fun _ _ => .slot i slot
  · exact .stop .broken

theorem tracks_publish (orderly : m.Orderly) (ref : Ref) : Tracks s free (publish ref) (publish ref) m :=
  tracks_shift orderly fun _ _ => .publish

theorem tracks_importClosure (ref : Ref) (t : TypeId) (sig : Signature) :
    Tracks s free (importClosure ref t sig) (importClosure ref t sig) m := by
  unfold importClosure
  dsimp only
  split
  · exact .stop (Looks.bind (looks_format _) fun _ _ => .violate _)
  · split
    · exact .stop .broken
    · exact tracks_allocate _ t

theorem tracks_coerceClosure (w : Word) (t : TypeId) (sig : Signature) :
    Tracks s free (coerceClosure w t sig) (coerceClosure w t sig) m := by
  refine .look (looks_decode w) fun v _ => ?_
  split
  · exact .pure w
  · refine .look (looks_recordAt _) fun r _ => ?_
    split
    · split
      · exact .pure w
      · refine .look (looks_verdict ..) fun answer _ => ?_
        split
        · exact .pure w
        · exact .stop (looks_mismatch ..)
    · exact .guard (looks_mismatch ..) fun _ => tracks_importClosure ..
  · exact .stop (looks_mismatch ..)

theorem tracks_sameContainer (w : Word) (tag t : TypeId) :
    Tracks s free (sameContainer w tag t) (sameContainer w tag t) m := by
  unfold sameContainer
  split
  · exact .pure w
  · refine .look (looks_verdict ..) fun answer _ => ?_
    split
    · exact .pure w
    · exact .stop (looks_mismatch ..)

theorem looks_slot (i : Nat) : Looks (readSlot r i) m fun _ => True := by
  refine .get ?_
  split
  · exact .pure trivial
  · exact .broken

section

variable (parts : ∀ w t m, m.Orderly → Tracks s none (recur w t) (recur' w t) m)
include parts

theorem tracks_coerceSlot (orderly : m.Orderly) (owner : Ref) (slot : Nat) (p : Property) :
    Tracks s none (coerceSlot recur owner slot p) (coerceSlot recur' owner slot p) m := by
  refine .look (looks_recordAt owner) fun before found => .look (looks_promises before p) fun kept _ => ?_
  split
  · exact .pure _
  · refine .look (looks_slot slot) fun w _ => ?_
    refine .bind Machine.moving_none (parts w p.type m orderly) fun converted m' tends _ => ?_
    split
    · exact .pure _
    · refine .look (looks_recordAt owner) fun after _ => ?_
      dsimp only
      split
      · refine .look (looks_propName _) fun _ _ => .look (looks_format _) fun _ _ => .stop ?_
        exact .violate _
      · exact tracks_setSlot (tends.orderly orderly) owner slot _

theorem tracks_coerceElem (orderly : m.Orderly) (ref : Ref) (elem : Child) (i : Nat) :
    Tracks s none (coerceElem recur ref elem i) (coerceElem recur' ref elem i) m := by
  refine .look (looks_recordAt ref) fun r _ => ?_
  split
  · exact .stop .broken
  · refine .bind Machine.moving_none (parts _ _ m orderly) fun _ m' tends _ => ?_
    refine tracks_shift (tends.orderly orderly) fun r _ => ?_
    split
    next => exact .elems _
    next => exact .same

theorem tracks_coerceArray (orderly : m.Orderly) (w : Word) (t : TypeId) (elem : Child) :
    Tracks s none (coerceArray recur w t elem) (coerceArray recur' w t elem) m := by
  refine .look (looks_decode w) fun v _ => ?_
  split
  · exact .pure w
  · refine .look (looks_record? w) fun x leads => ?_
    split
    · exact .stop (looks_mismatch ..)
    next ref r =>
      split
      · exact .stop (looks_mismatch ..)
      · split
        · exact tracks_sameContainer ..
        next untagged =>
          refine .bind Machine.moving_none (tracks_tag orderly (leads ref r rfl) untagged t) fun _ _ tends _ => ?_
          refine .bind Machine.moving_none ?_ fun _ _ _ _ => .pure w
          refine .forM (fun _ _ tends => tends.orderly) Machine.moving_none (tends.orderly orderly) ?_ _
          exact fun i _ _ orderly => tracks_coerceElem parts orderly ref elem i

/-- An entry of a record that has a type is still there when its value has been coerced. -/
theorem tracks_coerceEntry (orderly : m.Orderly) (typed : m.Typed ref) (elem : Child) (key : String) :
    Tracks s none (coerceEntry recur ref elem key) (coerceEntry recur' ref elem key) m := by
  refine .look (looks_recordAt ref) fun r found => ?_
  obtain ⟨r₁, found₁, tagged⟩ := typed
  cases found.symm.trans found₁
  split
  · exact .pure _
  next w here =>
    refine .bind Machine.moving_none (parts w elem m orderly) fun _ m' tends _ => ?_
    refine tracks_shift (tends.orderly orderly) fun r' found' => .put _ ?_
    obtain ⟨r₂, found₂, stays⟩ := tends.records found
    cases found'.symm.trans found₂
    exact stays.keys tagged (fun none => by cases none) key (by rw [here]; rfl)

theorem tracks_coerceMap (orderly : m.Orderly) (w : Word) (t : TypeId) (elem : Child) :
    Tracks s none (coerceMap recur w t elem) (coerceMap recur' w t elem) m := by
  refine .look (looks_decode w) fun v _ => ?_
  split
  · exact .pure w
  next ref _ =>
    refine .look (looks_recordAt ref) fun r found => ?_
    dsimp only
    split
    · exact tracks_sameContainer ..
    next untagged =>
      refine .guard (looks_mismatch ..) fun _ => ?_
      refine .bind_of_ok Machine.moving_none (tracks_tag orderly found untagged t) fun _ m' done tends _ => ?_
      have typed : m'.Typed ref := by
        cases done
        exact ⟨_, Heap.get?_update_same found _, rfl⟩
      refine .bind Machine.moving_none ?_ fun _ _ _ _ => .pure w
      refine .forM (P := fun m => m.Orderly ∧ m.Typed ref) ?_ Machine.moving_none ⟨tends.orderly orderly, typed⟩ ?_ _
      · exact fun _ _ tends holds => ⟨tends.orderly holds.1, tends.typed holds.2⟩
      · exact fun key _ _ holds => tracks_coerceEntry parts holds.1 holds.2 elem key
  · exact .stop (looks_mismatch ..)

end

theorem get_bind (next : Machine → Run α) : (get >>= next) m = next m m := rfl

theorem recordAt_bind (found : m.heap.get? ref = some r) (next : Record → Run α) :
    (recordAt ref >>= next) m = next r m := by
  rw [recordAt, bind_assoc, get_bind, found]
  rfl

theorem propName_bind {id : PropId} (named : m.types.names.name id ≠ "") (next : String → Run α) :
    (propName id >>= next) m = next (m.types.names.name id) m := by
  rw [propName, bind_assoc, get_bind]
  simp only [named, if_false]
  rfl

theorem tracks_install (orderly : m.Orderly) {id : PropId} (awaits : m.Awaits ref (m.types.names.name id))
    (slot : Nat) : Tracks s free (install ref id slot) (install ref id slot) m := by
  obtain ⟨r, found, tagged, _, absent⟩ := awaits
  refine .look (looks_recordAt ref) fun r₁ found₁ => ?_
  cases found.symm.trans found₁
  split
  · exact .stop .broken
  next l here =>
    split
    · exact .stop (.misuse _)
    next table installed =>
      refine tracks_shift orderly fun r' found' => ?_
      cases found.symm.trans found'
      exact .install here tagged absent installed

/-- A property moves from the store into a slot. -/
theorem tracks_settle (orderly : m.Orderly) (typed : m.Typed ref) (id : PropId) (slot : Nat) :
    Tracks s (some ref)
      (do install ref id slot; updateRecord ref fun r => (r.dynErase (m.types.names.name id)).1)
      (do install ref id slot; updateRecord ref fun r => (r.dynErase (m.types.names.name id)).1) m := by
  obtain ⟨r, found, tagged⟩ := typed
  have tidy := orderly.records found
  refine .of_ends ((ends_bind ..).2 ((ends_bind ..).2 ((ends_recordAt found).2 ?_)))
  cases here : r.layout with
  | none => exact ⟨.of_eq rfl rfl, .of_eq rfl⟩
  | some l =>
    dsimp only
    cases installed : l.table.install id slot with
    | error e => exact ⟨.of_eq rfl rfl, .of_eq rfl⟩
    | ok table =>
      refine (ends_updateRecord ..).2 ((ends_updateRecord ..).2 ?_)
      rw [Heap.update_update]
      refine ⟨.update fun r' found' => ?_, .update fun r' found' => ?_, .update fun r' found' x => ?_⟩
      all_goals cases found.symm.trans found'
      · exact .settle tidy tagged here installed rfl
      · change (r.settle m.types.names l table id).migrating = true → _
        rw [Record.settle_eq]
        exact fun moving => moving
      · exact Record.doubled_of_settle tidy here installed

theorem writeBack_eq {q : Ref} (found : m.heap.get? q = some r) (name : String) (w : Word) :
    s.writeBack q name w m = if s.watchful && (r.dynGet? name).isNone then .error .broken m
      else updateRecord q (·.dynPut name w) m := by
  change (if s.watchful && ((m.heap.get? q).bind (·.dynGet? name)).isNone then _ else _ : Run Unit) m = _
  rw [found, Option.bind_some]
  split <;> rfl

/-- A value is written back where it was found, or else to a record that has a slot for it by now. -/
theorem tracks_writeBack (orderly : m.Orderly) {q : Ref} (found : m.heap.get? q = some r) (stored : r.dyn.isSome)
    {name : String} (place : (r.dynGet? name).isSome ∨
      r.tag.isSome ∧ r.migrating = false ∧ ∃ id, m.types.names.name id = name ∧ (r.slotOf? id).isSome) (w : Word) :
    Tracks s free (updateRecord q (·.dynPut name w)) (s.writeBack q name w) m := by
  have tidy := orderly.records found
  by_cases key : (r.dynGet? name).isSome
  · have same : s.writeBack q name w m = updateRecord q (·.dynPut name w) m := by
      rw [writeBack_eq found, Option.isNone_eq_false_iff.2 key, Bool.and_false]
      rfl
    refine (tracks_shift orderly fun r' found' => ?_).congr same
    cases found.symm.trans found'
    exact .put w key
  · obtain ⟨tagged, finished, id, rfl, slot⟩ := place.resolve_left key
    have lost : (r.dynGet? (m.types.names.name id)).isNone = true := by simpa using key
    refine (ends_updateRecord ..).2 ⟨.update fun r' found' => ?_, .update fun r' found' => fun moving => moving, ?_⟩
    · cases found.symm.trans found'
      exact .put tidy finished _ w
    · rw [writeBack_eq found, lost, Bool.and_true]
      by_cases watchful : s.watchful = true
      · refine .inr ⟨watchful, ⟨q, _, id, Heap.get?_update_same found _, tagged, finished, slot, ?_⟩, m, ?_⟩
        · change ((r.dynPut (m.types.names.name id) w).dynGet? (m.types.names.name id)).isSome
          rw [Record.dynGet?_dynPut tidy.store, if_pos ⟨rfl, stored⟩]
          rfl
        · rw [writeBack_eq found, lost, Bool.and_true, if_pos watchful]
      · refine .inl ⟨?_, fun here => absurd here watchful⟩
        rw [if_neg watchful]
        rfl

/-- A value that was found in the store of `q` is still there, or `q` has been given a slot for it meanwhile. -/
theorem place_of_tends {m' : Machine} {q : Ref} {rq : Record} {name : String} (orderly : m.Orderly)
    (found : m.heap.get? q = some rq) (present : (rq.dynGet? name).isSome) (closed : free ≠ some q)
    (tends : m.Tends free m') (quiet : m.Quiet m') : ∃ rq', m'.heap.get? q = some rq' ∧ rq'.dyn.isSome ∧
      ((rq'.dynGet? name).isSome ∨
        rq'.tag.isSome ∧ rq'.migrating = false ∧ ∃ id, m'.types.names.name id = name ∧ (rq'.slotOf? id).isSome) := by
  obtain ⟨rq', found', stays⟩ := tends.records found
  obtain ⟨v, key⟩ := Option.isSome_iff_exists.1 present
  refine ⟨rq', found', stays.hasStore.trans (Record.dyn_isSome key), ?_⟩
  cases tag : rq.tag with
  | some t => exact .inl (stays.keys (by rw [tag]; rfl) closed name present)
  | none =>
    refine (stays.moved name present).imp_right ?_
    rintro ⟨id, named, slot⟩
    refine ⟨?_, ?_, id, by rw [tends.types, named], slot⟩
    · by_contra untagged
      have layout := ((tends.orderly orderly).records found').untagged (by simpa using untagged)
      rw [Record.slotOf?_none_of_layout layout.1] at slot
      cases slot
    · by_contra moving
      obtain ⟨rq₁, found₁, moving₁⟩ := quiet q rq' found' (by simpa using moving)
      cases found.symm.trans found₁
      rw [((orderly.records found).untagged tag).2] at moving₁
      cases moving₁

theorem node_bind (t : TypeId) (next : Node → Run α) : (node t >>= next) m = next (m.types.graph.node t) m := rfl

theorem decode_bind {v : Value} (known : w.decode? = some v) (next : Value → Run α) :
    (decode w >>= next) m = next v m := by
  rw [decode, known]
  rfl

theorem untypedObject?_eq_some {t : TypeId} (untyped : untypedObject? w t m = some ref) :
    ∃ props r, m.types.graph.node t = .object props ∧
      (w.decode? = some (.object ref) ∨ w.decode? = some (.closure ref)) ∧
      m.heap.get? ref = some r ∧ r.tag = none ∧ r.kind = .object := by
  unfold untypedObject? at untyped
  split at untyped
  case h_3 => cases untyped
  all_goals
    next props x node known =>
    obtain ⟨r, found, here⟩ := Option.bind_eq_some_iff.1 untyped
    split_ifs at here with fits
    cases here
    exact ⟨props, r, node, by simp [known], found, fits⟩

theorem coerceStep_of_untyped (recur : Recur) {t : TypeId} (untyped : untypedObject? w t m = some ref) :
    ∃ r, m.heap.get? ref = some r ∧ r.tag = none ∧
      coerceStep recur w t m = (do migrate recur ref t; return w) m := by
  obtain ⟨props, r, node, known, found, untagged, kind⟩ := untypedObject?_eq_some untyped
  refine ⟨r, found, untagged, ?_⟩
  have defined : w ≠ Word.undefined := by
    rintro rfl
    simp at known
  have step : coerceStep recur w t m = coerceObject recur w t m := by
    rw [coerceStep, if_neg defined, node_bind, node]
  rw [step, coerceObject]
  rcases known with known | known
  all_goals
    rw [decode_bind known]
    dsimp only
    rw [recordAt_bind found, untagged]
    simp [kind]

/-- An object that has a type is checked, and so is what is no object. -/
theorem tracks_coerceObject_of_typed {t : TypeId} {props : List Property}
    (object : m.types.graph.node t = .object props) (typed : untypedObject? w t m = none) :
    Tracks s free (coerceObject recur w t) (coerceObject recur' w t) m := by
  refine .look (looks_decode w) fun v known => ?_
  cases v with
  | null => exact .pure w
  | object ref | closure ref =>
    refine .look (looks_recordAt ref) fun r found => ?_
    split
    · split
      · exact .pure w
      · refine .look (looks_verdict ..) fun answer _ => ?_
        split
        · exact .pure w
        · exact .stop (looks_mismatch ..)
    next untagged =>
      have kind : r.kind ≠ .object := by simpa [untypedObject?, object, known, found, untagged] using typed
      exact .guard (looks_mismatch ..) fun other => absurd kind other
  | _ => exact .stop (looks_mismatch ..)

/-- What is done between start and finish is all that counts. -/
theorem Tracks.migration {body body' : Run Unit} {t : TypeId} (orderly : m.Orderly)
    (found : m.heap.get? ref = some r) (untagged : r.tag = none)
    (inside : Tracks s (some ref) body body' { m with heap := m.heap.update ref (·.start ref t) }) :
    Tracks s none
      (do updateRecord ref (·.start ref t); body; updateRecord ref (·.finish))
      (do updateRecord ref (·.start ref t); body'; updateRecord ref (·.finish)) m := by
  have opened := Machine.Tends.start (some ref) orderly found untagged t
  have moving := Machine.moving_start found t
  have begun : s.Agrees m { m with heap := m.heap.update ref (·.start ref t) }
      (updateRecord ref (·.start ref t) m = .ok () _) ((updateRecord ref (·.start ref t)).Stops m) :=
    .inl ⟨rfl, fun _ => .start t⟩
  refine (ends_bind ..).2 ((ends_updateRecord ..).2 ((ends_bind ..).2 (Ends.mono inside ?_ ?_)))
  · rintro _ m' ⟨tends, quiet, agrees⟩
    have ended : s.Agrees m' { m' with heap := m'.heap.update ref (·.finish) }
        (updateRecord ref (·.finish) m' = .ok () _) ((updateRecord ref (·.finish)).Stops m') :=
      .inl ⟨rfl, fun _ => .finish⟩
    have stays := Machine.Displaced.finish (tends.moving moving)
    have closed := (opened.trans tends).close found untagged
    refine (ends_updateRecord ..).2 ⟨closed.finish found untagged, quiet.finish, ?_⟩
    exact begun.bind opened.types (stays ∘ tends.displaced moving) (agrees.bind tends.types stays ended)
  · rintro f m' ⟨tends, agrees⟩
    refine ⟨(opened.trans tends).close found untagged, ?_⟩
    exact begun.bind opened.types (tends.displaced moving) agrees.error

theorem migrate_eq (recur : Recur) (ref : Ref) (t : TypeId) :
    migrate recur ref t = migrateEach (migrateProp recur ref) ref t := by
  have finish : (do updateRecord ref fun r => { r with migrating := false }; publish ref) =
      updateRecord ref (·.finish) := by
    funext m
    change EStateM.Result.ok () { m with heap := (m.heap.update ref _).update ref _ } = _
    rw [Heap.update_update]
    rfl
  unfold migrate migrateEach forProperties
  rw [← finish]
  simp only [bind_assoc]
  rfl

section

variable (parts : ∀ w t m, m.Orderly → Tracks s none (recur w t) (recur' w t) m)
include parts

theorem tracks_inherit (orderly : m.Orderly) {p : Property} {name : String} (named : name = m.types.names.name p.id)
    (awaits : m.Awaits ref name) (refs : List Ref) :
    Tracks s (some ref) (inherit recur ref p name refs) (inheritBy s recur' ref p name refs) m := by
  have moving : m.Moving (some ref) := awaits.moving
  induction refs with
  | nil => exact .pure false
  | cons q rest ih =>
    refine .look (looks_recordAt q) fun r found => ?_
    cases slot : r.slotOf? p.id with
    | some i =>
      dsimp only
      refine Tracks.congr ?_ (recordAt_bind found _)
      rw [slot]
      dsimp only
      refine .bind moving (tracks_coerceSlot parts orderly q i p).weaken fun _ m₁ tends₁ _ => ?_
      have orderly₁ := tends₁.orderly orderly
      refine .look (looks_recordAt ref) fun own _ => .look (looks_recordAt q) fun rq _ => ?_
      split
      · refine .look (looks_nextSlot ref name) fun place _ => ?_
        refine .bind (tends₁.moving moving) (tracks_publish orderly₁ q) fun _ m₂ tends₂ _ => ?_
        have tends₂ := tends₁.trans tends₂
        refine .bind (tends₂.moving moving) (tracks_setSlot (tends₂.orderly orderly) ref place _)
          fun _ m₃ tends₃ _ => ?_
        have tends₃ := tends₂.trans tends₃
        refine .bind (tends₃.moving moving) (tracks_install (tends₃.orderly orderly) ?_ place) fun _ _ _ _ => .pure true
        rw [tends₃.types, ← named]
        exact tends₃.awaits awaits
      · exact .pure true
    | none =>
      dsimp only
      cases key : r.dynGet? name with
      | none => exact ih
      | some w =>
        dsimp only
        have closed : some ref ≠ some q := by
          rintro same
          cases same
          obtain ⟨r₁, found₁, _, _, absent⟩ := awaits
          cases found.symm.trans found₁
          rw [absent] at key
          cases key
        refine .bind moving (parts w p.type m orderly).weaken fun converted m' tends quiet => ?_
        obtain ⟨r', found', stored, place⟩ := place_of_tends orderly found (by rw [key]; rfl) closed tends quiet
        refine .bind (tends.moving moving) (tracks_writeBack (tends.orderly orderly) found' stored place converted) ?_
        exact fun _ _ _ _ => .pure true

theorem tracks_migrateProp (complete : s.Complete) (orderly : m.Orderly) (moving : m.Moving (some ref))
    (p : Property) : Tracks s (some ref) (migrateProp recur ref p) (migratePropBy s recur' ref p) m := by
  refine .look (looks_propName p.id) fun name named => .look (looks_recordAt ref) fun r found => ?_
  obtain ⟨same, proper⟩ := named
  subst same
  have missing (m : Machine) (name : String) : Tracks s (some ref)
      (do violate (.missingProperty (r.value ref).text name (← format p.type)) : Run Unit)
      (do violate (.missingProperty (r.value ref).text name (← format p.type)) : Run Unit) m :=
    .look (looks_format _) fun _ _ => .stop (.violate _)
  -- a property of its own, or one that must be its own, is no matter of the search
  have own : migrateProp recur' ref p m = _ := (propName_bind proper _).trans (recordAt_bind found _)
  cases key : r.dynGet? (m.types.names.name p.id) with
  | some w =>
    simp only [Option.isNone_some, Bool.false_and, Bool.false_eq_true, if_false]
    refine Tracks.congr ?_ own
    rw [key]
    dsimp only
    refine .look (looks_nextSlot ref _) fun slot _ => ?_
    refine .bind moving (parts w p.type m orderly).weaken fun converted m₁ tends₁ _ => ?_
    refine .bind (tends₁.moving moving) (tracks_setSlot (tends₁.orderly orderly) ref slot _) fun _ m₂ tends₂ _ => ?_
    have tends₂ := tends₁.trans tends₂
    rw [← tends₂.types]
    exact tracks_settle (tends₂.orderly orderly) (tends₂.moving moving).typed p.id slot
  | none =>
    cases access : p.readOnly with
    | false =>
      simp only [Option.isNone_none, Bool.true_and, Bool.false_eq_true, if_false]
      refine Tracks.congr ?_ own
      rw [key, access]
      exact missing m _
    | true =>
      simp only [Option.isNone_none, Bool.true_and, if_true]
      have awaits : m.Awaits ref (m.types.names.name p.id) := by
        obtain ⟨r₁, found₁, tagged, underway⟩ := moving ref rfl
        cases found.symm.trans found₁
        exact ⟨r, found, tagged, underway, key⟩
      obtain ⟨l, chain⟩ := orderly.chains found
      cases chain with
      | cons found₁ links =>
        cases found.symm.trans found₁
        refine .get (.bind moving ?_ fun inherited _ _ _ => ?_)
        · rw [links.chain_eq, complete _ _ _ links]
          exact tracks_inherit parts orderly rfl awaits _
        · split
          · exact .pure _
          · exact missing _ _

theorem tracks_migrate (complete : s.Complete) (orderly : m.Orderly) (found : m.heap.get? ref = some r)
    (untagged : r.tag = none) (t : TypeId) :
    Tracks s none (migrate recur ref t) (migrateEach (migratePropBy s recur' ref) ref t) m := by
  have opened := (Machine.Tends.start none orderly found untagged t).orderly orderly
  have moving := Machine.moving_start found t
  rw [migrate_eq]
  apply Tracks.migration orderly found untagged
  refine .look (looks_node t) fun n _ => .bind moving ?_ fun _ m' tends _ => ?_
  all_goals apply Tracks.forM (P := Machine.Orderly) fun _ _ tends => tends.orderly
  · exact moving
  · exact opened
  · exact fun p _ moving orderly => tracks_migrateProp parts complete orderly moving p
  · exact tends.moving moving
  · exact tends.orderly opened
  · exact fun p _ moving orderly => tracks_migrateProp parts complete orderly moving p

/-- Without a migration there is nothing to search for. -/
theorem tracks_coerceStep_of_typed (orderly : m.Orderly) {w : Word} {t : TypeId} (typed : untypedObject? w t m = none) :
    Tracks s none (coerceStep recur w t) (coerceStep recur' w t) m := by
  unfold coerceStep
  split
  · exact .pure w
  · refine .look (looks_node t) fun n node => ?_
    subst node
    split
    next => exact .pure w
    next =>
      refine .look (looks_decode w) fun v _ => ?_
      split
      · exact .pure w
      · exact .stop (looks_mismatch ..)
    next => exact tracks_coerceClosure w t _
    next object => exact tracks_coerceObject_of_typed object typed
    next => exact tracks_coerceArray parts orderly w t _
    next => exact tracks_coerceMap parts orderly w t _
    next => exact .stop (looks_mismatch ..)

theorem tracks_coerceStep (complete : s.Complete) (orderly : m.Orderly) (w : Word) (t : TypeId) :
    Tracks s none (coerceStep recur w t) (coerceStepBy s recur' w t) m := by
  cases untyped : untypedObject? w t m with
  | some ref =>
    obtain ⟨r, found, untagged, step⟩ := coerceStep_of_untyped recur untyped
    have step' : coerceStepBy s recur' w t m = (do migrateEach (migratePropBy s recur' ref) ref t; return w) m := by
      rw [coerceStepBy, get_bind, untyped]
    refine (Tracks.congr_left ?_ step).congr step'
    exact .bind Machine.moving_none (tracks_migrate parts complete orderly found untagged t) fun _ _ _ _ => .pure w
  | none =>
    have step : coerceStepBy s recur' w t m = coerceStep recur' w t m := by
      rw [coerceStepBy, get_bind, untyped]
    exact (tracks_coerceStep_of_typed parts orderly untyped).congr step

end

/-- Coercion with a search does what coercion does, or it is stopped and coercion leaves a property in two places. -/
theorem tracks_coerceWithin (complete : s.Complete) (budget : Nat) (w : Word) (t : Child) (m : Machine)
    (orderly : m.Orderly) : Tracks s none (coerceWithin budget w t) (coerceWithinBy s budget w t) m := by
  induction budget generalizing w t m with
  | zero =>
    cases t with
    | none => exact .stop (.misuse _)
    | some t => exact .nested (.get (.stop (.violate _)))
  | succ budget ih =>
    cases t with
    | none => exact .stop (.misuse _)
    | some t =>
      have inner : Machine.Orderly { m with depth := m.depth + 1 } := ⟨orderly.records, orderly.chains⟩
      exact .nested (tracks_coerceStep ih complete inner w t)

theorem tracks_coerce (complete : s.Complete) (orderly : m.Orderly) (w : Word) (t : Child) :
    Tracks s none (coerce w t) (coerceBy s w t) m :=
  tracks_coerceWithin complete _ w t m orderly

end Run

end Gradual
