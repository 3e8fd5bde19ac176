import Gradual.Proofs.Heap.Deque
import Gradual.Proofs.Replay

/-!
A double-ended queue is a list. The elements move about in the backing array, but every sequence of accesses gives the
answers that it gives on a plain list of words, and never reaches for a place that the backing array does not have. For
the second part there is a careful copy of every operation, which gives up at the first place outside of the backing
array; it never does, and so it is the operation itself. Accesses are refused if they ask for a longer backing array
than there is, and a write at the largest index is; they leave the list as it is. Main statement:
`Deque.replay_refines_list`.
-/
namespace Gradual.Deque

inductive Access where
  | get (i : Int64)
  | put (i : Int64) (w : Word)
  | push (w : Word)
  | pop
  | shift
  | unshift (w : Word)
  deriving DecidableEq, Repr

inductive Answer where
  | value (w : Word)
  | length (n : Nat)
  | refused (why : Refusal)
  deriving DecidableEq, Repr

def Answer.isRefusal : Answer → Bool
  | .refused _ => true
  | _ => false

def conclude (answer : Deque → Answer) (result : Option Refusal × Deque) : Answer × Deque :=
  match result with
  | (some why, d) => (.refused why, d)
  | (none, d) => (answer d, d)

def access (d : Deque) : Access → Answer × Deque
  | .get i => (.value (if i < 0 then Word.undefined else d.get i.toNatClampNeg), d)
  | .put i w => conclude (fun _ => .value w) (d.put i w)
  | .push w => conclude (fun d => .length d.size) (d.push w)
  | .pop => (.value d.pop.1, d.pop.2)
  | .shift => (.value d.shift.1, d.shift.2)
  | .unshift w => conclude (fun d => .length d.size) (d.unshift w)

def Access.onList (l : List Word) : Access → Answer × List Word
  | .get i => (.value (if i < 0 then Word.undefined else l.getD i.toNatClampNeg Word.undefined), l)
  | .put i w => (.value w, if i.toNatClampNeg < l.length then l.set i.toNatClampNeg w
      else l ++ List.replicate (i.toNatClampNeg - l.length) Word.undefined ++ [w])
  | .push w => (.length (l.length + 1), l ++ [w])
  | .pop => (.value (l.getLastD Word.undefined), l.dropLast)
  | .shift => (.value (l.headD Word.undefined), l.tail)
  | .unshift w => (.length (l.length + 1), w :: l)

def accepted : List Access → Deque → List Access
  | [], _ => []
  | a :: rest, d =>
    if (d.access a).1.isRefusal then accepted rest (d.access a).2 else a :: accepted rest (d.access a).2

variable {d : Deque}

def read? (d : Deque) (k : Nat) : Option Word := d.backing[d.headroom + k]?

def write? (d : Deque) (k : Nat) (w : Word) : Option Deque :=
  if d.headroom + k < d.backing.size then some (d.write k w) else none

def get? (d : Deque) (i : Nat) : Option Word := if i < d.size then d.read? i else some Word.undefined

def rehouse? (d : Deque) (front total : Nat) : Option Deque := do
  let backing ← (List.range d.size).foldlM (fun b i => do
      let w ← d.read? i
      if front + i < b.size then some (b.setIfInBounds (front + i) w) else none)
    (Array.replicate total Word.null)
  return { backing, headroom := front, size := d.size }

def reserve? (d : Deque) (n : Nat) : Option Deque :=
  if n ≤ d.capacity then some d else d.rehouse? 0 (max (2 * d.backing.size) n)

def clear? (d : Deque) (i n : Nat) : Option Deque :=
  (List.range' i n).foldlM (fun d j => d.write? j Word.undefined) d

def store? (d : Deque) (i : Nat) (w : Word) : Option Deque :=
  if i < d.size then d.write? i w
  else do
    let r ← d.reserve? (i + 1)
    let gap ← r.clear? d.size (i - d.size)
    let full ← gap.write? i w
    return { full with size := i + 1 }

/-- At the largest index the first place outside is met, and that is what is told. -/
def put? (d : Deque) (i : Int64) (w : Word) : Option (Option Refusal × Deque) :=
  let k := i.toNatClampNeg
  if i < 0 then some (some .negativeIndex, d)
  else if k < d.size then (d.store? k w).map (none, ·)
  else if i = Int64.maxValue then do
    let cleared ← d.clear? d.size (d.capacity - d.size)
    if (cleared.write? d.capacity Word.undefined).isSome then none
    else some (some (.overrun i d.backing.size), cleared)
  else
    match d.refusal? (k + 1) with
    | some refusal => some (some refusal, d)
    | none => (d.store? k w).map (none, ·)

def push? (d : Deque) (w : Word) : Option (Option Refusal × Deque) :=
  match d.refusal? (d.size + 1) with
  | some refusal => some (some refusal, d)
  | none => (d.store? d.size w).map (none, ·)

def pop? (d : Deque) : Option (Word × Deque) :=
  if d.size = 0 then some (Word.undefined, d)
  else do
    let w ← d.read? (d.size - 1)
    let cleared ← d.write? (d.size - 1) Word.undefined
    return (w, { cleared with size := d.size - 1 })

def shift? (d : Deque) : Option (Word × Deque) :=
  if d.size = 0 then some (Word.undefined, d)
  else do
    let w ← d.read? 0
    let cleared ← d.write? 0 Word.undefined
    return (w, { cleared with headroom := d.headroom + 1, size := d.size - 1 })

def prepend? (d : Deque) (w : Word) : Option Deque := do
  let r ← if d.headroom = 0 then
      d.rehouse? (max d.size minCapacity) (max d.size minCapacity + d.backing.size)
    else some d
  if 0 < r.headroom ∧ r.headroom - 1 < r.backing.size then
    some ⟨r.backing.setIfInBounds (r.headroom - 1) w, r.headroom - 1, r.size + 1⟩
  else none

def unshift? (d : Deque) (w : Word) : Option (Option Refusal × Deque) :=
  let places := max d.size minCapacity + d.backing.size
  if d.headroom = 0 ∧ maxPlaces < places then some (some (.tooLong places), d) else (d.prepend? w).map (none, ·)

/-- An access that gives up at a place outside of the backing array. -/
def access? (d : Deque) : Access → Option (Answer × Deque)
  | .get i => (if i < 0 then some Word.undefined else d.get? i.toNatClampNeg).map fun w => (.value w, d)
  | .put i w => (d.put? i w).map (conclude fun _ => .value w)
  | .push w => (d.push? w).map (conclude fun d => .length d.size)
  | .pop => do
    let (w, d) ← d.pop?
    return (.value w, d)
  | .shift => do
    let (w, d) ← d.shift?
    return (.value w, d)
  | .unshift w => (d.unshift? w).map (conclude fun d => .length d.size)

/-- Steps that go well as long as an invariant holds, which they keep. -/
theorem foldlM_eq_some {α β : Type} (step? : β → α → Option β) (step : β → α → β) (Inv : β → Prop) {l : List α}
    (goes : ∀ b, ∀ a ∈ l, Inv b → step? b a = some (step b a) ∧ Inv (step b a)) {b : β} (inv : Inv b) :
    l.foldlM step? b = some (l.foldl step b) := by
  induction l generalizing b with
  | nil => rfl
  | cons a l ih =>
    obtain ⟨here, kept⟩ := goes b a List.mem_cons_self inv
    rw [List.foldlM_cons, here, List.foldl_cons]
    exact ih (fun b a member => goes b a (List.mem_cons_of_mem _ member)) kept

theorem read?_eq (housed : d.Housed) {k : Nat} (inside : k < d.size) : d.read? k = some (d.get k) := by
  rw [read?, get_of_lt inside, place, Array.getD_eq_getD_getElem?, Array.getElem?_eq_getElem (housed.place_lt inside)]
  rfl

theorem write?_eq {k : Nat} (room : d.headroom + k < d.backing.size) (w : Word) : d.write? k w = some (d.write k w) :=
  if_pos room

theorem get?_eq (housed : d.Housed) (i : Nat) : d.get? i = some (d.get i) := by
  unfold get?
  split
  next inside => exact read?_eq housed inside
  next outside => rw [get_of_ge (Nat.not_lt.1 outside)]

theorem rehouse?_eq (housed : d.Housed) {front total : Nat} (room : front + d.size ≤ total) :
    d.rehouse? front total = some (d.rehouse front total) := by
  rw [rehouse?, foldlM_eq_some _ (fun b i => b.setIfInBounds (front + i) (d.get i)) (·.size = total) ?_
    Array.size_replicate]
  · rfl
  · intro b i member size
    have inside : i < d.size := List.mem_range.1 member
    have fits : front + i < b.size := by omega
    rw [read?_eq housed inside]
    exact ⟨if_pos fits, by rw [Array.size_setIfInBounds, size]⟩

theorem reserve?_eq (housed : d.Housed) (n : Nat) : d.reserve? n = some (d.reserve n) := by
  unfold reserve? reserve
  split
  next => rfl
  next =>
    refine rehouse?_eq housed ?_
    unfold Housed at housed
    omega

theorem clear?_eq {i n : Nat} (room : d.headroom + (i + n) ≤ d.backing.size) :
    d.clear? i n = some (d.clear i n) := by
  refine foldlM_eq_some _ (fun (c : Deque) j => c.write j Word.undefined)
    (fun c => c.headroom = d.headroom ∧ c.backing.size = d.backing.size) ?_ ⟨rfl, rfl⟩
  rintro c j member ⟨headroom, backing⟩
  have inside := List.mem_range'_1.1 member
  exact ⟨write?_eq (by omega) _, headroom, by rw [write_backing_size, backing]⟩

theorem store?_eq (housed : d.Housed) (i : Nat) (w : Word) : d.store? i w = some (d.store i w) := by
  unfold store? store
  split
  next inside => exact write?_eq (housed.place_lt inside) w
  next outside =>
    obtain ⟨_, _, room, _⟩ := reserve_spec housed (i + 1)
    obtain ⟨_, headroom, backing, _⟩ := clear_spec (d := d.reserve (i + 1)) d.size (i - d.size) (by omega)
    rw [reserve?_eq housed]
    simp only [Option.bind_eq_bind, Option.bind_some]
    rw [clear?_eq (by omega)]
    simp only [Option.bind_some]
    rw [write?_eq (by omega)]
    rfl

theorem put?_eq (housed : d.Housed) (i : Int64) (w : Word) : d.put? i w = some (d.put i w) := by
  unfold put? put
  simp only [store?_eq housed]
  -- the place after the last one
  have outside : (d.clear d.size (d.capacity - d.size)).write? d.capacity Word.undefined = none := by
    obtain ⟨_, headroom, backing, _⟩ := clear_spec d.size (d.capacity - d.size) housed.rest_le
    rw [write?, headroom, backing, if_neg]
    unfold capacity
    omega
  split
  next => rfl
  next =>
    split
    next => rfl
    next =>
      split
      next =>
        rw [clear?_eq housed.rest_le]
        simp [outside]
      next => cases d.refusal? (i.toNatClampNeg + 1) <;> rfl

theorem push?_eq (housed : d.Housed) (w : Word) : d.push? w = some (d.push w) := by
  unfold push? push
  rw [store?_eq housed]
  cases d.refusal? (d.size + 1) <;> rfl

theorem pop?_eq (housed : d.Housed) : d.pop? = some d.pop := by
  unfold pop? pop
  split
  next => rfl
  next some =>
    have last : d.size - 1 < d.size := by omega
    rw [read?_eq housed last, write?_eq (housed.place_lt last)]
    rfl

theorem shift?_eq (housed : d.Housed) : d.shift? = some d.shift := by
  unfold shift? shift
  split
  next => rfl
  next some =>
    have first : 0 < d.size := Nat.pos_of_ne_zero some
    rw [read?_eq housed first, write?_eq (housed.place_lt first)]
    rfl

theorem prepend?_eq (housed : d.Housed) (w : Word) : d.prepend? w = some (d.prepend w) := by
  unfold prepend? prepend
  by_cases none : d.headroom = 0
  · have room : max d.size minCapacity + d.size ≤ max d.size minCapacity + d.backing.size := by
      unfold Housed at housed
      omega
    have front : 0 < (d.rehouse (max d.size minCapacity) (max d.size minCapacity + d.backing.size)).headroom ∧
        (d.rehouse (max d.size minCapacity) (max d.size minCapacity + d.backing.size)).headroom - 1 <
          (d.rehouse (max d.size minCapacity) (max d.size minCapacity + d.backing.size)).backing.size := by
      rw [rehouse_backing_size room]
      simp only [rehouse, minCapacity]
      omega
    simp only [none, if_true, rehouse?_eq housed room, Option.bind_eq_bind, Option.bind_some]
    exact if_pos front
  · have front : 0 < d.headroom ∧ d.headroom - 1 < d.backing.size := by
      unfold Housed at housed
      omega
    simp only [none, if_false, Option.bind_eq_bind, Option.bind_some]
    exact if_pos front

theorem unshift?_eq (housed : d.Housed) (w : Word) : d.unshift? w = some (d.unshift w) := by
  unfold unshift? unshift
  simp only [prepend?_eq housed]
  split <;> rfl

/-- No access reaches for a place outside of the backing array. -/
theorem access?_eq (housed : d.Housed) (a : Access) : d.access? a = some (d.access a) := by
  cases a with
  | get i =>
    rw [access?, access]
    split
    · rfl
    · rw [get?_eq housed]
      rfl
  | put i w => rw [access?, put?_eq housed]; rfl
  | push w => rw [access?, push?_eq housed]; rfl
  | pop => rw [access?, pop?_eq housed]; rfl
  | shift => rw [access?, shift?_eq housed]; rfl
  | unshift w => rw [access?, unshift?_eq housed]; rfl

structure Lists (d : Deque) (l : List Word) : Prop where
  housed : d.Housed
  size : d.size = l.length
  get : ∀ k, d.get k = l.getD k Word.undefined

theorem Lists.toList_eq {l : List Word} (lists : d.Lists l) : d.toList = l := by
  apply List.ext_getElem
  · simp [toList, lists.size]
  · intro k _ inside
    simp [toList, lists.get, inside]

theorem lists_toList (housed : d.Housed) : d.Lists d.toList := by
  refine ⟨housed, by simp [toList], fun k => ?_⟩
  by_cases inside : k < d.size
  · simp [toList, inside]
  · simp [toList, inside, Deque.get]

theorem Lists.keep {d' : Deque} {l : List Word} (lists : d.Lists l) (keeps : d.Keeps d') : d'.Lists l :=
  ⟨keeps.housed lists.housed, keeps.size.trans lists.size, fun k => (keeps.get k).trans (lists.get k)⟩

theorem Lists.store {l : List Word} (lists : d.Lists l) (i : Nat) (w : Word) :
    (d.store i w).Lists (if i < l.length then l.set i w
      else l ++ List.replicate (i - l.length) Word.undefined ++ [w]) := by
  obtain ⟨housed, size, get⟩ := lists
  obtain ⟨housed', size', get'⟩ := store_spec housed i w
  refine ⟨housed', ?_, fun k => ?_⟩
  · rw [size', size]
    split
    · rw [List.length_set]
      omega
    · simp only [List.length_append, List.length_replicate, List.length_singleton]
      omega
  · rw [get', get]
    grind

theorem Lists.append {l : List Word} (lists : d.Lists l) (w : Word) : (d.append w).Lists (l ++ [w]) := by
  have stored := lists.store d.size w
  rwa [lists.size, if_neg (Nat.lt_irrefl _), Nat.sub_self, List.replicate_zero, List.append_nil, ← lists.size] at stored

theorem Lists.prepend {l : List Word} (lists : d.Lists l) (w : Word) : (d.prepend w).Lists (w :: l) := by
  obtain ⟨housed, size, get⟩ := lists
  obtain ⟨housed', size', get'⟩ := prepend_spec housed w
  refine ⟨housed', by rw [size', size, List.length_cons], fun k => ?_⟩
  rw [get', get]
  grind

theorem Lists.pop {l : List Word} (lists : d.Lists l) :
    d.pop.1 = l.getLastD Word.undefined ∧ d.pop.2.Lists l.dropLast := by
  obtain ⟨housed, size, get⟩ := lists
  obtain ⟨housed', size', get'⟩ := pop_spec housed
  refine ⟨?_, housed', by rw [size', size, List.length_dropLast], fun k => ?_⟩
  · unfold Deque.pop
    split
    · grind
    · simp only [get]
      grind
  · rw [get', get]
    grind

theorem Lists.shift {l : List Word} (lists : d.Lists l) :
    d.shift.1 = l.headD Word.undefined ∧ d.shift.2.Lists l.tail := by
  obtain ⟨housed, size, get⟩ := lists
  obtain ⟨housed', size', get'⟩ := shift_spec housed
  refine ⟨?_, housed', by rw [size', size, List.length_tail], fun k => ?_⟩
  · unfold Deque.shift
    cases l <;> simp [size, get]
  · rw [get', get]
    grind

/-- One access: refused, and the queue holds what it held; or the same answer as on the list, and the queue holds what
the list has become. -/
theorem Lists.access {l : List Word} (lists : d.Lists l) (a : Access) :
    (∃ why, (d.access a).1 = .refused why ∧ d.Keeps (d.access a).2) ∨
      (d.access a).1.isRefusal = false ∧ (d.access a).1 = (a.onList l).1 ∧ (d.access a).2.Lists (a.onList l).2 := by
  cases a with
  | get i => exact .inr ⟨rfl, by simp only [Deque.access, Access.onList, lists.get], lists⟩
  | put i w =>
    rcases put_cases lists.housed i w with ⟨_, done⟩ | ⟨why, d', refused, keeps⟩
    · rw [Deque.access, done]
      exact .inr ⟨rfl, rfl, lists.store i.toNatClampNeg w⟩
    · rw [Deque.access, refused]
      exact .inl ⟨why, rfl, keeps⟩
  | push w =>
    rcases push_cases d w with done | ⟨why, refused⟩
    · have appended := lists.append w
      rw [Deque.access, done]
      exact .inr ⟨rfl, by simp [conclude, Access.onList, appended.size], appended⟩
    · rw [Deque.access, refused]
      exact .inl ⟨why, rfl, .refl d⟩
  | pop => exact .inr ⟨rfl, congrArg Answer.value lists.pop.1, lists.pop.2⟩
  | shift => exact .inr ⟨rfl, congrArg Answer.value lists.shift.1, lists.shift.2⟩
  | unshift w =>
    rcases unshift_cases d w with done | ⟨why, refused⟩
    · have prepended := lists.prepend w
      rw [Deque.access, done]
      exact .inr ⟨rfl, by simp [conclude, Access.onList, prepended.size], prepended⟩
    · rw [Deque.access, refused]
      exact .inl ⟨why, rfl, .refl d⟩

theorem access_housed (housed : d.Housed) (a : Access) : (d.access a).2.Housed := by
  rcases (lists_toList housed).access a with ⟨_, _, keeps⟩ | ⟨_, _, lists⟩
  · exact keeps.housed housed
  · exact lists.housed

/-- The accesses for which the elements have to move to a new backing array. -/
def Access.Rehouses (d : Deque) : Access → Prop
  | .get _ | .pop | .shift => False
  | .put i _ => d.capacity < max d.size (i.toNatClampNeg + 1)
  | .push _ => d.capacity < d.size + 1
  | .unshift _ => d.headroom = 0

/-- The accesses that are refused: for an index that is negative or, past the end, the largest one, and for want of a
backing array long enough. -/
def Access.Refused (d : Deque) : Access → Prop
  | .get _ | .pop | .shift => False
  | .put i _ => i < 0 ∨ d.size ≤ i.toNatClampNeg ∧ (i = Int64.maxValue ∨
      d.capacity < i.toNatClampNeg + 1 ∧ maxPlaces < max (2 * d.backing.size) (i.toNatClampNeg + 1))
  | .push _ => d.capacity < d.size + 1 ∧ maxPlaces < max (2 * d.backing.size) (d.size + 1)
  | .unshift _ => d.headroom = 0 ∧ maxPlaces < max d.size minCapacity + d.backing.size

theorem access_isRefusal_iff (d : Deque) (a : Access) : (d.access a).1.isRefusal ↔ a.Refused d := by
  cases a with
  | get | pop | shift => simp [access, Access.Refused, Answer.isRefusal]
  | put i w =>
    unfold access put refusal? Access.Refused
    simp only
    split_ifs <;> simp_all [conclude, Answer.isRefusal]
  | push w =>
    unfold access push refusal? Access.Refused
    simp only
    split_ifs with refused
    · exact iff_of_true rfl refused
    · exact iff_of_false Bool.false_ne_true refused
  | unshift w =>
    unfold access unshift Access.Refused
    simp only
    split_ifs with refused
    · exact iff_of_true rfl refused
    · exact iff_of_false Bool.false_ne_true refused

theorem reserve_backing_size (housed : d.Housed) (n : Nat) : (d.reserve n).backing.size =
    if n ≤ d.capacity then d.backing.size else max (2 * d.backing.size) n := by
  unfold Housed at housed
  unfold reserve
  split
  next => rfl
  next => exact rehouse_backing_size (by omega)

theorem store_backing_size (housed : d.Housed) (i : Nat) (w : Word) : (d.store i w).backing.size =
    if d.capacity < max d.size (i + 1) then max (2 * d.backing.size) (i + 1) else d.backing.size := by
  unfold store
  split
  next inside =>
    unfold Housed at housed
    rw [write_backing_size, if_neg (by unfold capacity; omega)]
  next outside =>
    obtain ⟨_, _, room, _⟩ := reserve_spec housed (i + 1)
    obtain ⟨_, _, backing, _⟩ := clear_spec (d := d.reserve (i + 1)) d.size (i - d.size) (by omega)
    simp only [write_backing_size]
    rw [backing, reserve_backing_size housed]
    split
    next fits => rw [if_neg (by omega)]
    next => rw [if_pos (by omega)]

theorem prepend_backing_size (housed : d.Housed) (w : Word) : (d.prepend w).backing.size =
    if d.headroom = 0 then max d.size minCapacity + d.backing.size else d.backing.size := by
  unfold Housed at housed
  simp only [prepend, Array.size_setIfInBounds]
  split
  next => exact rehouse_backing_size (by omega)
  next => rfl

theorem store_backing_size_ne_iff (housed : d.Housed) (i : Nat) (w : Word) :
    (d.store i w).backing.size ≠ d.backing.size ↔ d.capacity < max d.size (i + 1) := by
  rw [store_backing_size housed]
  unfold Housed at housed
  unfold capacity
  split <;> omega

/-- The length of the backing array changes with the accesses that need it to and are not refused, and with no
others. -/
theorem access_backing_size_ne_iff (housed : d.Housed) (a : Access) :
    (d.access a).2.backing.size ≠ d.backing.size ↔ a.Rehouses d ∧ ¬ a.Refused d := by
  rw [← access_isRefusal_iff]
  cases a with
  | get i => simp [access, Access.Rehouses]
  | put i w =>
    rcases put_cases housed i w with ⟨_, done⟩ | ⟨why, d', refused, keeps⟩
    · rw [access, done]
      simpa [conclude, Answer.isRefusal, Access.Rehouses] using store_backing_size_ne_iff housed i.toNatClampNeg w
    · rw [access, refused]
      simp [conclude, Answer.isRefusal, keeps.places]
  | push w =>
    rcases push_cases d w with done | ⟨why, refused⟩
    · rw [access, done]
      simpa [conclude, Answer.isRefusal, Access.Rehouses, append] using store_backing_size_ne_iff housed d.size w
    · rw [access, refused]
      simp [conclude, Answer.isRefusal]
  | pop =>
    simp only [access, Access.Rehouses, pop]
    split <;> simp
  | shift =>
    simp only [access, Access.Rehouses, shift]
    split <;> simp
  | unshift w =>
    rcases unshift_cases d w with done | ⟨why, refused⟩
    · rw [access, done]
      simp only [conclude, prepend_backing_size housed, Access.Rehouses, Answer.isRefusal, minCapacity]
      split <;> simp_all
    · rw [access, refused]
      simp [conclude, Answer.isRefusal]

theorem ofList_lists (init : List Word) : (ofList init).Lists init := by
  obtain ⟨housed, size, get⟩ := ofList_spec init
  exact ⟨housed, size, get⟩

/-- A whole run: the accesses that are not refused give the answers that they give on the list. -/
theorem Lists.replay {l : List Word} (lists : d.Lists l) (past : List Access) :
    (Gradual.replay Deque.access past d).1.filter (!·.isRefusal) =
        (Gradual.replay Access.onList (accepted past d) l).1 ∧
      (Gradual.replay Deque.access past d).2.Lists (Gradual.replay Access.onList (accepted past d) l).2 := by
  induction past generalizing d l with
  | nil => exact ⟨rfl, lists⟩
  | cons a past ih =>
    rcases lists.access a with ⟨why, refused, keeps⟩ | ⟨answered, answer, next⟩
    · have skipped : (d.access a).1.isRefusal = true := by rw [refused]; rfl
      simpa [Gradual.replay, accepted, skipped] using ih (lists.keep keeps)
    · obtain ⟨answers, last⟩ := ih next
      rw [accepted, answered]
      refine ⟨?_, last⟩
      rw [Gradual.replay, List.filter_cons_of_pos (by rw [answered]; rfl), answer, answers]
      rfl

theorem append_capacity (fits : d.size + 1 ≤ d.capacity) (w : Word) : (d.append w).capacity = d.capacity := by
  have stays : d.reserve (d.size + 1) = d := if_pos fits
  simp only [append, store, if_neg (Nat.lt_irrefl d.size), stays, Nat.sub_self, clear, List.range'_zero,
    List.foldl_nil, capacity, write_backing_size]
  rfl

/-- The initial elements are pushed one after the other into a queue that has the places for them. -/
theorem replay_pushes (init : List Word) (housed : d.Housed) (fits : d.size + init.length ≤ d.capacity) :
    (replay access (init.map .push) d).2 = init.foldl append d := by
  induction init generalizing d with
  | nil => rfl
  | cons w init ih =>
    rw [List.length_cons] at fits
    have pushed : (d.access (.push w)).2 = d.append w := by
      rw [access, push, refusal?, if_neg (by omega)]
      rfl
    obtain ⟨housed', size', -⟩ := append_spec housed w
    have capacity' := append_capacity (d := d) (by omega) w
    rw [List.map_cons, replay, pushed, List.foldl_cons]
    exact ih housed' (by omega)

/-- For all initial elements and all accesses that follow, the queue answers as the list does and ends with the elements
of the list, refused accesses left out. The elements lie inside of the backing array, and no access up to here has
reached for a place outside of it, except for the one that a write at the largest index is refused for. The next access
is refused exactly if its index is negative or the largest one, or if no backing array is long enough for it, and then
the queue keeps its elements where they are; it changes the length of the backing array exactly if it is not refused and
adds in front without headroom or makes the queue longer than fits. -/
theorem replay_refines_list (init : List Word) (past : List Access) :
    let d := (replay access past (ofList init)).2
    let l := (replay Access.onList (accepted past (ofList init)) init).2
    (replay access past (ofList init)).1.filter (!·.isRefusal) =
        (replay Access.onList (accepted past (ofList init)) init).1 ∧
      d.toList = l ∧ d.size = l.length ∧
      d.headroom + d.size ≤ d.headroom + d.capacity ∧ d.headroom + d.capacity = d.backing.size ∧
      (replay? access? (init.map .push ++ past) (withCapacity init.length)).map Prod.snd = some d ∧
      ∀ next, ((d.access next).1.isRefusal ↔ next.Refused d) ∧ (next.Refused d → d.Keeps (d.access next).2) ∧
        ((d.access next).2.backing.size ≠ d.backing.size ↔ next.Rehouses d ∧ ¬ next.Refused d) := by
  obtain ⟨answers, lists⟩ := (ofList_lists init).replay past
  have careful := replay?_eq_some Housed (fun _ a housed => ⟨access?_eq housed a, access_housed housed a⟩)
    (init.map .push ++ past) (withCapacity_housed init.length)
  have housed := lists.housed
  unfold Housed at housed
  refine ⟨answers, lists.toList_eq, lists.size, ?_, ?_, ?_, fun next => ⟨access_isRefusal_iff _ next, ?_,
    access_backing_size_ne_iff lists.housed next⟩⟩
  · unfold capacity
    omega
  · unfold capacity
    omega
  · rw [careful, Option.map_some, replay_append, replay_pushes init (withCapacity_housed _) ?_]
    · rfl
    · simp only [withCapacity, capacity, Array.size_replicate, Nat.sub_zero, Nat.zero_add]
      exact Nat.le_max_left _ _
  · intro refused
    rw [← access_isRefusal_iff] at refused
    rcases lists.access next with ⟨_, _, keeps⟩ | ⟨answered, -, -⟩
    · exact keeps
    · exact absurd refused (by rw [answered]; simp)

/-- A list of any length is not what a queue stands for: at an index so large that no memory has room for the gap, and
at the largest index, a write to an empty queue has no effect. -/
theorem access_ne_onList_far :
    let far : Access := .put 0x4000000000000000 Word.null
    let last : Access := .put Int64.maxValue Word.null
    ((ofList []).access far).1 = .refused (.tooLong 0x4000000000000001) ∧
      ((ofList []).access last).1 = .refused (.overrun Int64.maxValue minCapacity) ∧
      (far.onList []).1 = .value Word.null ∧ (last.onList []).1 = .value Word.null := by
  refine ⟨?_, ?_, rfl, rfl⟩ <;> decide +kernel

end Gradual.Deque
