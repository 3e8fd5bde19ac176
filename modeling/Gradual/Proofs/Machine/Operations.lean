import Gradual.Machine.Call
import Gradual.Proofs.Machine.Effect

/-!
What comes of each operation, if its operands are values of the machine and the types it is given are
proper: it alters the machine as operations may, and what it returns is a value again.
-/
namespace Gradual

def Deque.Holds (d : Deque) (h : Heap) : Prop := d.Housed ∧ ∀ i, h.Genuine (d.get i)

namespace Deque.Holds

variable {d : Deque} {h : Heap} {w : Word}

theorem keep {d' : Deque} (holds : d.Holds h) (keeps : d.Keeps d') : d'.Holds h :=
  ⟨keeps.housed holds.1, fun k => keeps.get k ▸ holds.2 k⟩

theorem store (holds : d.Holds h) (genuine : h.Genuine w) (i : Nat) : (d.store i w).Holds h := by
  obtain ⟨housed, _, get⟩ := Deque.store_spec holds.1 i w
  refine ⟨housed, fun k => ?_⟩
  rw [get]
  split
  · exact genuine
  · exact holds.2 k

theorem put (holds : d.Holds h) (genuine : h.Genuine w) (i : Int64) : (d.put i w).2.Holds h := by
  rcases Deque.put_cases holds.1 i w with ⟨_, done⟩ | ⟨_, _, refused, keeps⟩
  · rw [done]
    exact holds.store genuine _
  · rw [refused]
    exact holds.keep keeps

theorem push (holds : d.Holds h) (genuine : h.Genuine w) : (d.push w).2.Holds h := by
  rcases Deque.push_cases d w with done | ⟨_, refused⟩
  · rw [done]
    exact holds.store genuine d.size
  · rwa [refused]

theorem prepend (holds : d.Holds h) (genuine : h.Genuine w) : (d.prepend w).Holds h := by
  obtain ⟨housed, _, get⟩ := Deque.prepend_spec holds.1 w
  refine ⟨housed, fun k => ?_⟩
  rw [get]
  split
  · exact genuine
  · exact holds.2 _

theorem unshift (holds : d.Holds h) (genuine : h.Genuine w) : (d.unshift w).2.Holds h := by
  rcases Deque.unshift_cases d w with done | ⟨_, refused⟩
  · rw [done]
    exact holds.prepend genuine
  · rwa [refused]

theorem pop (holds : d.Holds h) : d.pop.2.Holds h := by
  obtain ⟨housed, _, get⟩ := Deque.pop_spec holds.1
  refine ⟨housed, fun k => ?_⟩
  rw [get]
  split
  · exact holds.2 k
  · exact Heap.genuine_undefined

theorem shift (holds : d.Holds h) : d.shift.2.Holds h := by
  obtain ⟨housed, _, get⟩ := Deque.shift_spec holds.1
  refine ⟨housed, fun k => ?_⟩
  rw [get]
  exact holds.2 _

theorem pop_word (holds : d.Holds h) : h.Genuine d.pop.1 := by
  unfold Deque.pop
  split
  · exact Heap.genuine_undefined
  · exact holds.2 _

theorem shift_word (holds : d.Holds h) : h.Genuine d.shift.1 := by
  unfold Deque.shift
  split
  · exact Heap.genuine_undefined
  · exact holds.2 _

theorem ofList {words : List Word} (genuine : ∀ w ∈ words, h.Genuine w) : (Deque.ofList words).Holds h := by
  obtain ⟨housed, _, get⟩ := Deque.ofList_spec words
  refine ⟨housed, fun k => ?_⟩
  rw [get, List.getD_eq_getElem?_getD]
  cases present : words[k]? with
  | some w => exact genuine w (List.mem_of_getElem? present)
  | none => exact Heap.genuine_undefined

end Deque.Holds

namespace Run

variable {α : Type} {New : Child → Code → Prop} {m : Machine} {w obj : Word} {ref : Ref} {r : Record}

theorem ends_propRecord {ok : Ref × Record → Machine → Prop} {err : Fault → Machine → Prop} {operation : String}
    (genuine : m.heap.Genuine obj)
    (result : ∀ ref r, (obj.decode? = some (.object ref) ∨ obj.decode? = some (.closure ref)) →
      m.heap.get? ref = some r → ok (ref, r) m)
    (fault : ∀ v, err (.violation v) { m with dirty := true }) : Ends (propRecord operation obj) m ok err := by
  obtain ⟨v, known, _⟩ := id genuine
  simp only [propRecord, ends_bind, ends_decode known]
  cases v with
  | object ref =>
    obtain ⟨r, found, _⟩ := genuine.object known
    simpa [ends_recordAt found] using result ref r (.inl known) found
  | closure ref =>
    obtain ⟨r, found, _⟩ := genuine.closure known
    simpa [ends_recordAt found] using result ref r (.inr known) found
  | _ => exact fault _

theorem ends_arrayOf {ok : Ref × Deque → Machine → Prop} {err : Fault → Machine → Prop} (genuine : m.heap.Genuine obj)
    (result : ∀ ref r d, m.heap.get? ref = some r → r.elems? = some d → ok (ref, d) m)
    (fault : ∀ v, err (.violation v) { m with dirty := true }) : Ends (arrayOf obj) m ok err := by
  obtain ⟨v, known, _⟩ := id genuine
  have wrong : Ends (do violate (.notArray (← describe obj))) m ok err := by
    rw [ends_bind]
    exact ends_describe genuine fun _ => fault _
  simp only [arrayOf, ends_bind, ends_decode known]
  cases v with
  | object ref =>
    obtain ⟨r, found, _⟩ := genuine.object known
    rw [ends_bind, ends_recordAt found]
    cases elems : r.elems? with
    | some d => exact result ref r d found elems
    | none => exact wrong
  | _ => exact wrong

theorem ends_callable {ok : Ref × Record × Code → Machine → Prop} {err : Fault → Machine → Prop}
    (genuine : m.heap.Genuine obj)
    (result : ∀ ref r code, m.heap.get? ref = some r → r.code? = some code → ok (ref, r, code) m)
    (fault : ∀ v, err (.violation v) { m with dirty := true }) : Ends (callable obj) m ok err := by
  obtain ⟨v, known, _⟩ := id genuine
  have wrong : Ends (do violate (.notCallable (← describe obj))) m ok err := by
    rw [ends_bind]
    exact ends_describe genuine fun _ => fault _
  simp only [callable, ends_bind, ends_decode known]
  cases v with
  | closure ref =>
    obtain ⟨r, found, _⟩ := genuine.closure known
    rw [ends_bind, ends_recordAt found]
    cases code : r.code? with
    | some code => exact result ref r _ found code
    | none => exact wrong
  | _ => exact wrong

theorem reads_propRecord {operation : String} (genuine : m.heap.Genuine obj) :
    Reads (propRecord operation obj) m fun x => m.heap.get? x.1 = some x.2 :=
  ends_propRecord genuine (fun _ _ _ found => ⟨rfl, found⟩) fun _ => ⟨trivial, .inr rfl⟩

theorem reads_arrayOf (valid : m.Valid) (genuine : m.heap.Genuine obj) :
    Reads (arrayOf obj) m fun x => x.2.Holds m.heap :=
  ends_arrayOf genuine (fun _ _ d found elems => ⟨rfl, (valid.records found).elems d elems⟩)
    fun _ => ⟨trivial, .inr rfl⟩

theorem reads_propName (id : PropId) : Reads (propName id) m fun _ => True := by
  simp only [Reads, propName, ends_bind, ends_get]
  split
  next unnamed => exact ⟨unnamed, .inl rfl⟩
  next => exact ⟨rfl, trivial⟩

/-- A property without a name is in no slot, so it can only be missing from the store. -/
theorem reads_lookupOwn (valid : m.Valid) (found : m.heap.get? ref = some r) (id : PropId) :
    Reads (lookupOwn r id) m fun own => ∀ w, own = some w → m.heap.Genuine w := by
  by_cases named : m.types.names.name id = ""
  · have free : r.slotOf? id = none := by
      cases slot : r.slotOf? id with
      | none => rfl
      | some i => exact absurd named ((valid.records found).named slot)
    simp only [lookupOwn, free]
    split
    · exact (reads_propName id).bind fun name _ => .pure fun w present => (valid.records found).entries name w present
    · exact .pure (by simp)
  · rw [Reads, ends_lookupOwn valid found named]
    exact ⟨rfl, fun w own => valid.own?_genuine found own⟩

theorem reads_lookupAlong (valid : m.Valid) (id : PropId) {start : Option Ref} {l : List Ref}
    (chain : m.heap.Chain start l) : Reads (lookupAlong id l) m m.heap.Genuine := by
  induction chain with
  | nil => exact .pure Heap.genuine_undefined
  | cons found _ ih =>
    rw [lookupAlong, Reads, ends_bind, ends_recordAt found]
    refine (reads_lookupOwn valid found id).bind fun own genuine => ?_
    cases own with
    | some w => exact .pure (genuine w rfl)
    | none => exact ih

theorem reads_getProp (valid : m.Valid) (object : m.heap.Genuine obj) (id : PropId) :
    Reads (getProp obj id) m m.heap.Genuine := by
  refine (reads_propRecord object).bind fun x found => ?_
  obtain ⟨l, chain⟩ := valid.chains found
  rw [Reads, ends_bind, ends_get, chain.chain_eq]
  exact reads_lookupAlong valid id chain

theorem reads_hasOwn (valid : m.Valid) (object : m.heap.Genuine obj) (id : PropId) :
    Reads (hasOwn obj id) m fun _ => True :=
  (reads_propRecord object).bind fun _ found => (reads_lookupOwn valid found id).bind fun _ _ => .pure trivial

theorem ends_mapM_propName {err : Fault → Machine → Prop} {ids : List PropId}
    (named : ∀ id ∈ ids, m.types.names.name id ≠ "") : Ends (ids.mapM propName) m (fun _ m' => m' = m) err := by
  induction ids with
  | nil => rfl
  | cons id ids ih =>
    obtain ⟨here, rest⟩ := List.forall_mem_cons.1 named
    simp only [List.mapM_cons, ends_bind, ends_propName here, ends_pure]
    exact ih rest

/-- Properties in slots have names, so the keys of an object can always be listed. -/
theorem ends_ownKeys (valid : m.Valid) (object : m.heap.Genuine obj) : Ends (ownKeys obj) m (fun _ m' => m' = m)
    fun f m' => (∃ v, f = .violation v) ∧ m' = { m with dirty := true } := by
  simp only [ownKeys, ends_bind, ends_pure]
  refine ends_propRecord object (fun ref r _ found => ?_) fun v => ⟨⟨v, rfl⟩, rfl⟩
  refine ends_mapM_propName fun id member => ?_
  obtain ⟨i, slot⟩ : ∃ i, r.slotOf? id = some i := by
    cases layout : r.layout with
    | none => simp [layout] at member
    | some l =>
      simp only [layout, Option.map_some, Option.getD_some] at member
      rw [Record.slotOf?, layout, Option.bind_some, ← Option.isSome_iff_exists, ← Option.ne_none_iff_isSome]
      exact fun free => Layout.slot?_eq_none.1 free member
  exact (valid.records found).named slot

theorem reads_ownKeys (valid : m.Valid) (object : m.heap.Genuine obj) : Reads (ownKeys obj) m fun _ => True := by
  refine (ends_ownKeys valid object).mono (fun _ _ same => ⟨same, trivial⟩) ?_
  rintro _ _ ⟨⟨v, rfl⟩, same⟩
  exact ⟨trivial, .inr same⟩

theorem reads_linkWord {link : Option Ref} (valid : m.Valid)
    (leads : ∀ q, link = some q → ∃ r, m.heap.get? q = some r) : Reads (linkWord link) m m.heap.Genuine := by
  cases link with
  | none => exact .pure Heap.genuine_null
  | some q =>
    obtain ⟨r, found⟩ := leads q rfl
    rw [linkWord, Reads, ends_bind, ends_recordAt found]
    exact ⟨rfl, valid.word_genuine found⟩

theorem reads_prototypeOf (valid : m.Valid) (object : m.heap.Genuine obj) :
    Reads (prototypeOf obj) m m.heap.Genuine :=
  (reads_propRecord object).bind fun _ found => reads_linkWord valid fun _ link => valid.linked found link

theorem reads_record? (genuine : m.heap.Genuine w) :
    Reads (record? w) m fun x => ∀ ref r, x = some (ref, r) → m.heap.get? ref = some r := by
  rw [Reads]
  apply ends_record? genuine
  · exact ⟨rfl, by simp⟩
  · intro ref r found _
    refine ⟨rfl, fun _ _ same => ?_⟩
    cases same
    exact found

theorem reads_tagOf (genuine : m.heap.Genuine w) : Reads (tagOf w) m fun _ => True :=
  (reads_record? genuine).bind fun _ _ => .pure trivial

theorem reads_arrayGet (valid : m.Valid) (array : m.heap.Genuine obj) (i : Int64) :
    Reads (arrayGet obj i) m m.heap.Genuine := by
  refine (reads_arrayOf valid array).bind fun x holds => .pure ?_
  split
  · exact Heap.genuine_undefined
  · exact holds.2 _

theorem reads_decode (genuine : m.heap.Genuine w) : Reads (decode w) m fun v => w.decode? = some v := by
  obtain ⟨v, known, _⟩ := genuine
  rw [Reads, ends_decode known]
  exact ⟨rfl, known⟩

theorem reads_asInt (genuine : m.heap.Genuine w) : Reads (asInt w) m fun _ => True := by
  refine (reads_decode genuine).bind fun v _ => ?_
  cases v with
  | int n => exact .pure trivial
  | _ => exact ⟨trivial, .inl rfl⟩

theorem reads_stringOf (genuine : m.heap.Genuine w) : Reads (stringOf w) m fun _ => True := by
  obtain ⟨v, known, leads⟩ := genuine
  rw [stringOf, Reads, ends_bind, ends_decode known]
  cases v with
  | string ref =>
    obtain ⟨r, found, _⟩ := leads ref rfl
    simp [ends_recordAt found]
  | _ => exact ⟨trivial, .inl rfl⟩

theorem reads_boxGet (valid : m.Valid) (box : m.heap.Genuine obj) : Reads (boxGet obj) m m.heap.Genuine := by
  obtain ⟨v, known, leads⟩ := box
  rw [boxGet, Reads, ends_bind, ends_decode known]
  cases v with
  | box ref =>
    obtain ⟨r, found, _⟩ := leads ref rfl
    rw [ends_bind, ends_recordAt found]
    exact ⟨rfl, (valid.records found).cell⟩
  | _ => exact ⟨trivial, .inl rfl⟩

theorem reads_constructorPrototype (valid : m.Valid) (genuine : m.heap.Genuine obj) :
    Reads (constructorPrototype obj) m m.heap.Genuine := by
  rw [constructorPrototype, Reads, ends_bind]
  exact ends_callable genuine (fun _ _ _ found _ => reads_linkWord valid (valid.records found).prototype)
    fun _ => ⟨trivial, .inr rfl⟩

theorem works_setProp (valid : m.Valid) (object : m.heap.Genuine obj) (genuine : m.heap.Genuine w)
    (key : PropId) : Works New (setProp obj key w) m fun _ _ => True := by
  obtain ⟨v, known, _⟩ := id genuine
  simp only [Works, setProp, ends_bind, ends_decode known]
  split
  next => exact fair_refl valid trivial
  next =>
    rw [ends_bind]
    refine ends_propRecord object (fun ref r _ found => ?_) (fair_violation valid)
    have old := valid.records found
    dsimp only
    cases slot : r.slotOf? key with
    | some i =>
      dsimp only
      rw [if_pos (old.slot_lt slot).2]
      exact ⟨.refill valid found (old.setSlot genuine i), trivial⟩
    | none =>
      simp only [ends_bind, ends_openStore, ends_updateRecord, propName, ends_get]
      have opened : m.Alters New { m with heap := m.heap.update ref (·.withStore m.hash) } :=
        .refill valid found (old.withStore m.hash)
      split
      next unnamed => exact ⟨unnamed, opened⟩
      next =>
        have found' := Heap.get?_update_same found (·.withStore m.hash)
        have put := (opened.valid.records found').dynPut (opened.genuine genuine) (m.types.names.name key)
        exact ⟨opened.trans (.refill opened.valid found' put), trivial⟩

theorem works_deleteProp (valid : m.Valid) (object : m.heap.Genuine obj) (key : PropId) :
    Works New (deleteProp obj key) m fun _ _ => True := by
  simp only [Works, deleteProp, ends_bind]
  refine ends_propRecord object (fun ref r _ found => ?_) (fair_violation valid)
  dsimp only
  split
  next => exact ⟨.refl valid, trivial⟩
  next =>
    simp only [ends_bind, propName, ends_get]
    split
    next unnamed => exact fair_refl valid unnamed
    next => exact ⟨.refill valid found ((valid.records found).dynErase _), trivial⟩

theorem works_boxSet (valid : m.Valid) (box : m.heap.Genuine obj) (genuine : m.heap.Genuine w) :
    Works New (boxSet obj w) m fun _ _ => True := by
  obtain ⟨v, known, leads⟩ := id box
  obtain ⟨x, known', _⟩ := id genuine
  simp only [Works, boxSet, ends_bind, ends_decode known]
  cases v with
  | box ref =>
    obtain ⟨r, found, _⟩ := leads ref rfl
    have old := valid.records found
    simp only [ends_bind, ends_decode known']
    split
    next => exact fair_refl valid trivial
    next =>
      simp only [ends_bind, ends_discard, ends_recordAt found]
      exact ⟨.refill valid found ⟨rfl, rfl, fun _ => rfl, rfl, old.slots, fun _ _ _ slot => slot, old.store,
        old.entries, old.elems, genuine, rfl⟩, trivial⟩
  | _ => exact fair_refl valid trivial

/-- An operation on the elements of an array. -/
theorem ends_elements (f : Deque → Deque) (P : Deque → Machine → Prop) (valid : m.Valid)
    (array : m.heap.Genuine obj) (holds : ∀ d, d.Holds m.heap → (f d).Holds m.heap)
    (result : ∀ d m', d.Holds m.heap → m.Alters New m' → P d m') :
    Ends (arrayOf obj) m (fun x m' => Ends (setElems x.1 (f x.2)) m' (fun _ m' => m.Alters New m' ∧ P x.2 m')
      fun f m' => f.Fair m' ∧ m.Alters New m') fun f m' => f.Fair m' ∧ m.Alters New m' := by
  refine ends_arrayOf array (fun ref r d found elems => ?_) (fair_violation valid)
  have old := valid.records found
  have made : r.setElems (f d) = { r with body := .array (f d) } := by
    rw [Record.setElems, Record.elems?_eq_some.1 elems]
  obtain ⟨housed, genuine⟩ := holds d (old.elems d elems)
  have alters : m.Alters New { m with heap := m.heap.update ref (·.setElems (f d)) } :=
    .refill valid found (made ▸ old.setElems elems housed genuine)
  exact ⟨alters, result d _ (old.elems d elems) alters⟩

theorem ends_refuse {refusal : Deque.Refusal} (due : refusal.Due) (alters : m.Alters New m') :
    Ends (refuse refusal) m' ok fun f m' => f.Fair m' ∧ m.Alters New m' := by
  cases refusal with
  | negativeIndex => exact ⟨trivial, alters⟩
  | tooLong places => exact ⟨due, alters⟩
  | overrun i places => exact ⟨due, alters⟩

/-- An operation on the elements of an array that may be refused. -/
theorem ends_settled (f : Deque → Option Deque.Refusal × Deque) (valid : m.Valid) (array : m.heap.Genuine obj)
    (holds : ∀ d, d.Holds m.heap → (f d).2.Holds m.heap)
    (due : ∀ d refusal, (f d).1 = some refusal → refusal.Due) :
    Ends (arrayOf obj) m (fun x m' => Ends (settle x.1 (f x.2)) m' (fun _ m' => m.Alters New m' ∧ True)
      fun f m' => f.Fair m' ∧ m.Alters New m') fun f m' => f.Fair m' ∧ m.Alters New m' := by
  refine (ends_elements (fun d => (f d).2) (fun _ _ => True) valid array holds fun _ _ _ _ => trivial).mono
    (fun x m' settled => ?_) fun _ _ fault => fault
  rw [settle, ends_bind]
  refine settled.mono (fun _ m'' altered => ?_) fun _ _ fault => fault
  cases refused : (f x.2).1 with
  | none => exact altered
  | some refusal => exact ends_refuse (due _ refusal refused) altered.1

theorem works_arrayPut (valid : m.Valid) (array : m.heap.Genuine obj) (genuine : m.heap.Genuine w) (i : Int64) :
    Works New (arrayPut obj i w) m fun _ _ => True := by
  simp only [Works, arrayPut, ends_bind]
  exact ends_settled (·.put i w) valid array (fun _ holds => holds.put genuine i) fun _ _ => Deque.put_due

theorem works_arrayPush (valid : m.Valid) (array : m.heap.Genuine obj) (genuine : m.heap.Genuine w) :
    Works New (arrayPush obj w) m fun _ _ => True := by
  simp only [Works, arrayPush, ends_bind, ends_pure]
  exact ends_settled (·.push w) valid array (fun _ holds => holds.push genuine) fun _ _ => Deque.push_due

theorem works_arrayUnshift (valid : m.Valid) (array : m.heap.Genuine obj) (genuine : m.heap.Genuine w) :
    Works New (arrayUnshift obj w) m fun _ _ => True := by
  simp only [Works, arrayUnshift, ends_bind, ends_pure]
  exact ends_settled (·.unshift w) valid array (fun _ holds => holds.unshift genuine) fun _ _ => Deque.unshift_due

theorem works_arrayPop (valid : m.Valid) (array : m.heap.Genuine obj) :
    Works New (arrayPop obj) m fun w m' => m'.heap.Genuine w := by
  simp only [Works, arrayPop, ends_bind, ends_pure]
  exact ends_elements (·.pop.2) (fun d m' => m'.heap.Genuine d.pop.1) valid array (fun _ holds => holds.pop)
    fun _ _ holds alters => alters.genuine holds.pop_word

theorem works_arrayShift (valid : m.Valid) (array : m.heap.Genuine obj) :
    Works New (arrayShift obj) m fun w m' => m'.heap.Genuine w := by
  simp only [Works, arrayShift, ends_bind, ends_pure]
  exact ends_elements (·.shift.2) (fun d m' => m'.heap.Genuine d.shift.1) valid array (fun _ holds => holds.shift)
    fun _ _ holds alters => alters.genuine holds.shift_word

theorem works_setPrototype {proto : Word} (valid : m.Valid) (object : m.heap.Genuine obj)
    (link : m.heap.Genuine proto) : Works New (setPrototype obj proto) m fun _ _ => True := by
  obtain ⟨v, known, _⟩ := id object
  obtain ⟨p, known', _⟩ := id link
  simp only [Works, setPrototype, ends_bind]
  refine ends_propRecord object (fun ref r _ found => ?_) (fair_violation valid)
  simp only [ends_decode known']
  split
  next => exact ⟨.link valid found rfl .nil List.not_mem_nil, trivial⟩
  next =>
    rw [ends_bind]
    refine ends_propRecord link (fun target rt _ at_target => ?_) (fair_violation valid)
    obtain ⟨l, chain⟩ := valid.chains at_target
    simp only [ends_bind, ends_get, chain.chain_eq]
    split
    next =>
      rw [ends_bind, ends_decode known]
      exact fair_violation valid _
    next acyclic => exact ⟨.link valid found rfl chain acyclic, trivial⟩

theorem works_allocate (valid : m.Valid) (record : r.Valid m.types m.heap) (proto : r.proto = none)
    (forwards : ∀ (i : Nat) (q : Ref) (j : Nat), r.slots[i]? ≠ some (.forward q j))
    (new : ∀ code, r.code? = some code → New r.tag code) :
    Works New (allocate r) m fun w m' => m'.heap.Genuine w := by
  rw [Works, ends_allocate]
  split
  next room =>
    have valid' := valid.add record proto forwards room
    have found : (m.heap.add r).get? (m.heap.size + 1) = some r := by rw [Heap.get?_add, if_pos rfl]
    exact ⟨.add valid' new, valid'.word_genuine found⟩
  next full => exact fair_refl valid (Nat.le_of_lt_succ (Nat.lt_of_not_le full))

theorem plain_valid {body : RecordBody} {s : TypeStore} {h : Heap}
    (slots : ∀ (i : Nat) (w : Word), (Record.plain body).slots[i]? = some (.here w) → h.Genuine w)
    (elems : ∀ d, (Record.plain body).elems? = some d → d.Holds h)
    (prototype : ∀ q, (Record.plain body).prototype? = some q → ∃ rq, h.get? q = some rq) :
    (Record.plain body).Valid s h where
  slots := slots
  elems := elems
  store := nofun
  entries := nofun
  cell := Heap.genuine_null
  prototype := prototype
  tagged := nofun
  untagged _ := ⟨rfl, rfl⟩
  layout := nofun
  named := nofun

theorem object_valid {slots : Array Slot} {s : TypeStore} {h : Heap}
    (filled : ∀ (i : Nat) (w : Word), slots[i]? = some (.here w) → h.Genuine w) :
    (Record.plain (.object slots)).Valid s h :=
  plain_valid filled nofun nofun

theorem box_valid {s : TypeStore} {h : Heap} (genuine : h.Genuine w) :
    Record.Valid s h { Record.plain .box with cell := w } where
  slots := nofun
  elems := nofun
  store := nofun
  entries := nofun
  cell := genuine
  prototype := nofun
  tagged := nofun
  untagged _ := ⟨rfl, rfl⟩
  layout := nofun
  named := nofun

/-- A record that is no closure brings no new code. -/
theorem new_of_codeless (codeless : r.code? = none) (code : Code) (has_code : r.code? = some code) :
    New r.tag code := by
  rw [codeless] at has_code
  cases has_code

theorem ends_emptyObject {ok : Word → Machine → Prop} {err : Fault → Machine → Prop} (count : Nat) :
    Ends (emptyObject count) m ok err ↔
      if maxBytes < slotBytes * count then err (.misuse (.allocation (slotBytes * count))) m
      else Ends (allocate (.plain (.object (Array.replicate count (.here Word.undefined))))) m ok err := by
  unfold emptyObject
  split <;> rfl

theorem works_emptyObject (valid : m.Valid) (count : Nat) :
    Works New (emptyObject count) m fun w m' => m'.heap.Genuine w := by
  have filled {count i : Nat} {s : Slot} (here : (Array.replicate count (Slot.here Word.undefined))[i]? = some s) :
      s = .here Word.undefined := by
    rw [Array.getElem?_replicate] at here
    split at here
    · exact (Option.some.inj here).symm
    · cases here
  rw [Works, ends_emptyObject]
  split
  next far => exact fair_refl valid far
  next =>
    refine works_allocate valid (object_valid fun i w here => ?_) rfl (fun i q j forward => ?_)
      (new_of_codeless rfl)
    · cases filled here
      exact Heap.genuine_undefined
    · cases filled forward

theorem works_newObject (valid : m.Valid) (n : Int) : Works New (newObject n) m fun w m' => m'.heap.Genuine w := by
  simp only [Works, newObject, ends_bind, ends_get]
  exact works_emptyObject valid _

/-- Distinct properties of the type take the slots of an object literal in order. -/
theorem works_newLiteral {t : TypeId} {values : List Word} (valid : m.Valid) (proper : m.types.Proper t)
    (genuine : ∀ w ∈ values, m.heap.Genuine w) : Works New (newLiteral t values) m fun w m' => m'.heap.Genuine w := by
  simp only [Works, newLiteral, ends_bind, ends_node]
  cases shape : m.types.graph.node t with
  | object props =>
    have formed := proper.wellFormed.node
    rw [shape] at formed
    simp only [Layout.ofProperties_eq formed.1]
    split
    next => exact fair_refl valid trivial
    next count =>
      have filled {i : Nat} {s : Slot} (here : (values.map Slot.here).toArray[i]? = some s) :
          ∃ w ∈ values, s = .here w := by
        rw [List.getElem?_toArray, List.getElem?_map, Option.map_eq_some_iff] at here
        obtain ⟨w, present, rfl⟩ := here
        exact ⟨w, List.mem_of_getElem? present, rfl⟩
      have plain : (Record.plain (.object (values.map Slot.here).toArray)).Valid m.types m.heap := by
        refine object_valid fun i w here => ?_
        obtain ⟨w', member, same⟩ := filled here
        cases same
        exact genuine _ member
      refine works_allocate valid {
        plain with
        tagged := fun t' known => ?_, untagged := fun known => ?_, layout := fun l here => ?_
        named := fun {id i} slot => ?_ }
        rfl (fun i q j forward => ?_) (new_of_codeless rfl)
      · cases known
        refine ⟨proper, ?_⟩
        rw [shape]
        exact ⟨rfl, rfl⟩
      · cases known
      · cases here
        refine ⟨by simpa using formed.1, ?_, ?_, rfl⟩
        · simp [List.zipIdx_map_snd, List.range_eq_range']
        · simp [Record.slots, Record.plain, not_not.1 count]
      · have member := Record.mem_of_slot? (show Layout.slot? ⟨(props.map (·.id)).zipIdx, true⟩ id = some i from slot)
        obtain ⟨p, inside, rfl⟩ := List.mem_map.1 (List.fst_mem_of_mem_zipIdx member)
        exact proper.named p (by rw [shape]; exact inside)
      · obtain ⟨_, _, same⟩ := filled forward
        cases same
  | _ => exact fair_refl valid trivial

theorem works_newArray {elems : List Word} (valid : m.Valid) (genuine : ∀ w ∈ elems, m.heap.Genuine w) :
    Works New (newArray elems) m fun w m' => m'.heap.Genuine w := by
  refine works_allocate valid (plain_valid nofun (fun d made => ?_) nofun) rfl nofun nofun
  cases made
  exact .ofList genuine

theorem works_newString (valid : m.Valid) (s : String) : Works New (newString s) m fun w m' => m'.heap.Genuine w :=
  works_allocate valid (plain_valid nofun nofun nofun) rfl nofun nofun

theorem works_newBox (valid : m.Valid) (genuine : m.heap.Genuine w) :
    Works New (newBox w) m fun w m' => m'.heap.Genuine w := by
  obtain ⟨v, known, _⟩ := id genuine
  simp only [Works, newBox, ends_bind, ends_decode known]
  split
  next => exact fair_refl valid trivial
  next =>
    refine works_allocate valid (box_valid genuine) rfl (fun i q j forward => ?_) (new_of_codeless rfl)
    cases forward

/-- A closure, with a closure type or without one. -/
theorem works_closure {body : RecordBody} {tag : Child} (valid : m.Valid)
    (callable : (Record.plain body).kind.isCallable)
    (prototype : ∀ q, (Record.plain body).prototype? = some q → ∃ rq, m.heap.get? q = some rq)
    (typed : ∀ t, tag = some t → m.types.Proper t ∧ (∃ sig, m.types.graph.node t = .closure sig) ∧
      ((Record.plain body).kind = .closure ∨ (Record.plain body).kind = .constructor))
    (new : ∀ code, (Record.plain body).code? = some code → New tag code) :
    Works New (allocate { Record.plain body with tag := tag }) m fun w m' => m'.heap.Genuine w := by
  have slots : (Record.plain body).slots = #[] := by
    cases body <;> first | rfl | cases callable
  have elems : (Record.plain body).elems? = none := by
    cases body <;> first | rfl | cases callable
  refine works_allocate valid {
    slots := fun i w here => ?_, elems := fun d made => ?_, tagged := fun t known => ?_
    store := nofun, entries := nofun, cell := Heap.genuine_null, prototype := prototype
    untagged := fun _ => ⟨rfl, rfl⟩, layout := nofun, named := nofun }
    rfl (fun i q j forward => ?_) new
  · change (Record.plain body).slots[i]? = _ at here
    rw [slots] at here
    cases here
  · change (Record.plain body).elems? = _ at made
    rw [elems] at made
    cases made
  · obtain ⟨proper, ⟨sig, shape⟩, kind⟩ := typed t known
    refine ⟨proper, ?_⟩
    rw [shape]
    exact ⟨kind, rfl, rfl⟩
  · change (Record.plain body).slots[i]? = _ at forward
    rw [slots] at forward
    cases forward

/-- Code that passes the check takes as many arguments as the type says. -/
theorem ends_checkTypedCode {ok : Nat → Machine → Prop} {t : TypeId} {sig : Signature} (valid : m.Valid)
    (shape : m.types.graph.node t = .closure sig) (code : GivenCode)
    (result : ∀ arity : Nat, sig.explicitCount = arity → ok arity m) :
    Ends (checkTypedCode t code) m ok fun f m' => f.Fair m' ∧ m.Alters New m' := by
  unfold checkTypedCode
  cases code with
  | absent | untyped => exact fair_refl valid trivial
  | typed arity =>
    simp only [ends_bind, ends_get, shape, Node.explicitCount]
    split
    next => exact fair_refl valid trivial
    next same => exact result _ (not_not.1 same).symm

theorem works_newClosure {t : Child} {code : GivenCode} {body : Body} {env : Option (List Word)} (valid : m.Valid)
    (proper : ∀ u, t = some u → m.types.Proper u)
    (new : ∀ u sig (arity : Nat), t = some u → m.types.graph.node u = .closure sig → sig.explicitCount = arity →
      New (some u) (.typed arity body env)) :
    Works New (newClosure t code body env) m fun w m' => m'.heap.Genuine w := by
  unfold newClosure
  cases t with
  | none => exact fair_refl valid trivial
  | some t =>
    simp only [Works, ends_bind, ends_node]
    cases shape : m.types.graph.node t with
    | closure sig =>
      dsimp only [Node.signature?]
      split
      next => exact fair_refl valid trivial
      next =>
        rw [ends_bind]
        refine ends_checkTypedCode valid shape code fun arity count =>
          works_closure valid rfl (by simp [Record.plain, Record.prototype?]) (fun u same => ?_) fun c made => ?_
        · cases same
          exact ⟨proper t rfl, ⟨sig, shape⟩, .inl rfl⟩
        · cases made
          exact new t sig arity rfl shape count
    | _ => exact fair_refl valid trivial

theorem works_newUntyped {body : Body} {env : Option (List Word)} (valid : m.Valid)
    (new : New none (.untyped body env)) : Works New (newUntyped body env) m fun w m' => m'.heap.Genuine w := by
  refine works_closure valid rfl nofun nofun fun c made => ?_
  cases made
  exact new

theorem ends_prototypeLink {ok : Option Ref → Machine → Prop} {proto : Word} (valid : m.Valid)
    (genuine : m.heap.Genuine proto)
    (result : ∀ link, (∀ q, link = some q → ∃ r, m.heap.get? q = some r) → ok link m) :
    Ends (prototypeLink proto) m ok fun f m' => f.Fair m' ∧ m.Alters New m' := by
  obtain ⟨v, known, _⟩ := id genuine
  simp only [prototypeLink, ends_bind, ends_decode known]
  split
  next => exact result none (by simp)
  next =>
    rw [ends_bind]
    refine ends_propRecord genuine (fun ref r _ found => result (some ref) fun q same => ?_) (fair_violation valid)
    cases same
    exact ⟨r, found⟩

theorem works_newConstructor {t : Child} {proto : Word} {code : GivenCode} {body : Body} {env : Option (List Word)}
    (valid : m.Valid) (proper : ∀ u, t = some u → m.types.Proper u) (genuine : m.heap.Genuine proto)
    (untyped : t = none → New none (.untyped body env))
    (new : ∀ u sig (arity : Nat), t = some u → m.types.graph.node u = .closure sig → sig.explicitCount = arity →
      New (some u) (.typed arity body env)) :
    Works New (newConstructor t proto code body env) m fun w m' => m'.heap.Genuine w := by
  unfold newConstructor
  cases t with
  | none =>
    dsimp only
    split
    next => exact fair_refl valid trivial
    next =>
      rw [Works, ends_bind]
      refine ends_prototypeLink valid genuine fun link leads =>
        works_closure valid rfl leads (by simp) fun c made => ?_
      cases made
      exact untyped rfl
  | some t =>
    simp only [Works, ends_bind, ends_node]
    cases shape : m.types.graph.node t with
    | closure sig =>
      dsimp only [Node.signature?]
      split
      next => exact fair_refl valid trivial
      next =>
        rw [ends_bind]
        refine ends_checkTypedCode valid shape code fun arity count => ?_
        rw [ends_bind]
        refine ends_prototypeLink valid genuine fun link leads =>
          works_closure valid rfl leads (fun u same => ?_) fun c made => ?_
        · cases same
          exact ⟨proper t rfl, ⟨sig, shape⟩, .inr rfl⟩
        · cases made
          exact new t sig arity rfl shape count
    | _ => exact fair_refl valid trivial

theorem works_exportClosure (valid : m.Valid) (genuine : m.heap.Genuine obj)
    (new : ∀ ref r t, m.heap.get? ref = some r → r.kind.isCallable → r.tag = some t → New none (.exporting ref t)) :
    Works New (exportClosure obj) m fun w m' => m'.heap.Genuine w := by
  simp only [Works, exportClosure, ends_bind]
  refine ends_callable genuine (fun ref r code found has_code => ?_) (fair_violation valid)
  dsimp only
  cases tag : r.tag with
  | none => exact ⟨.refl valid, genuine⟩
  | some t =>
    refine works_closure valid rfl (by simp [Record.plain, Record.prototype?]) (by simp) fun c made => ?_
    cases made
    exact new ref r t found (Record.isCallable_iff.2 ⟨code, has_code⟩) tag

def instantiate (ctor : Record) : Run Word := do
  let obj ← newObject 0
  let (ref, _) ← record obj
  updateRecord ref fun o => { o with proto := ctor.prototype? }
  return obj

theorem construct_eq (host : Host) (fuel : Nat) (ctor : Word) (args : List Word) :
    construct host fuel ctor args = do
      let (ref, r, code) ← callable ctor
      if r.kind ≠ .constructor then violate (.notConstructor (← describe ctor))
      let obj ← instantiate r
      discard (callRecord host fuel ref r code obj args)
      match r.tag with
      | none => return obj
      | some t =>
        match (← node t).receiver with
        | none => return obj
        | some recv =>
          match ← node recv with
          | .object _ =>
            discard (coerce obj (some recv))
            return obj
          | _ => return obj := by
  simp only [instantiate, bind_assoc, pure_bind]
  rfl

theorem works_instantiate (valid : m.Valid) (found : m.heap.get? ref = some r) :
    Works New (instantiate r) m fun w m' => m'.heap.Genuine w := by
  have made : Works New (newObject 0) m fun w m' => m'.heap.Genuine w := works_newObject valid 0
  simp only [Works, newObject, ends_bind, ends_get, Int.le_refl, if_true, ends_emptyObject, ends_allocate] at made
  simp only [Works, instantiate, newObject, ends_bind, ends_get, Int.le_refl, if_true, ends_emptyObject, ends_allocate]
  split at made
  next far =>
    rw [if_pos far]
    exact made
  next near =>
    rw [if_neg near]
    split at made
    next room =>
      rw [if_pos room]
      generalize as_made : Record.plain _ = new at made ⊢
      have last : (m.heap.add new).get? (m.heap.size + 1) = some new := by rw [Heap.get?_add, if_pos rfl]
      have known : (new.word (m.heap.size + 1)).decode? = some (.object (m.heap.size + 1)) := by
        rw [new.word_decode? (Nat.succ_ne_zero _) room, ← as_made]
        rfl
      obtain ⟨added, genuine⟩ := made
      have linked {link : Option Ref} {l : List Ref} (chain : (m.heap.add new).Chain link l)
          (acyclic : m.heap.size + 1 ∉ l) : Machine.Alters New { m with heap := m.heap.add new }
            { m with heap := (m.heap.add new).update (m.heap.size + 1) fun o => { o with proto := link } } :=
        .link added.valid last rfl chain acyclic
      simp only [record, ends_bind, ends_decode known, Value.ref?]
      rw [ends_recordAt last]
      simp only [ends_pure, ends_updateRecord]
      cases link : r.prototype? with
      | none => exact ⟨added.trans (linked .nil List.not_mem_nil), (linked .nil List.not_mem_nil).genuine genuine⟩
      | some q =>
        obtain ⟨rq, at_q⟩ := (valid.records found).prototype q link
        obtain ⟨l, chain⟩ := valid.chains at_q
        have chain' : (m.heap.add new).Chain (some q) l :=
          chain.transfer fun x _ rx present => ⟨rx, Heap.get?_add_old present new, rfl⟩
        have acyclic : m.heap.size + 1 ∉ l := by
          intro member
          obtain ⟨_, present⟩ := chain.mem_get? member
          exact absurd (Heap.get?_bounds present).2 (Nat.not_succ_le_self _)
        exact ⟨added.trans (linked chain' acyclic), (linked chain' acyclic).genuine genuine⟩
    next full =>
      rw [if_neg full]
      exact made

end Run

end Gradual
