import Gradual.Heap.Deque
import Mathlib.Data.List.Range

/-!
Reading after each operation on a double-ended queue. The elements lie inside the backing array, and
every operation keeps them there; what is read at an index afterwards is then what the same operation
on a plain sequence gives, with undefined outside of it.
-/
namespace Gradual.Deque

variable {d : Deque}

/-- The elements lie inside the backing array. -/
def Housed (d : Deque) : Prop := d.headroom + d.size ≤ d.backing.size

/-- Place `k` from the front on, whether it holds an element or not. -/
def place (d : Deque) (k : Nat) : Word := d.backing.getD (d.headroom + k) Word.undefined

theorem Housed.place_lt {i : Nat} (housed : d.Housed) (inside : i < d.size) : d.headroom + i < d.backing.size := by
  unfold Housed at housed
  omega

/-- There are as many places after the elements as the capacity tells. -/
theorem Housed.rest_le (housed : d.Housed) : d.headroom + (d.size + (d.capacity - d.size)) ≤ d.backing.size := by
  unfold Housed at housed
  unfold capacity
  omega

theorem withCapacity_housed (n : Nat) : (withCapacity n).Housed := by simp [Housed, withCapacity]

theorem get_of_lt {i : Nat} (inside : i < d.size) : d.get i = d.place i := if_pos inside

theorem get_of_ge {i : Nat} (outside : d.size ≤ i) : d.get i = Word.undefined :=
  if_neg (Nat.not_lt.2 outside)

@[simp] theorem write_size (i : Nat) (w : Word) : (d.write i w).size = d.size := rfl
@[simp] theorem write_headroom (i : Nat) (w : Word) : (d.write i w).headroom = d.headroom := rfl

@[simp] theorem write_backing_size (i : Nat) (w : Word) :
    (d.write i w).backing.size = d.backing.size := by
  simp [write]

theorem write_place {i : Nat} (w : Word) (room : d.headroom + i < d.backing.size) (k : Nat) :
    (d.write i w).place k = if k = i then w else d.place k := by
  simp only [write, place, Array.getD_eq_getD_getElem?, Array.getElem?_setIfInBounds]
  by_cases same : k = i
  · simp [same, room]
  · rw [if_neg (by omega), if_neg same]

theorem write_get {i : Nat} (housed : d.Housed) (inside : i < d.size) (w : Word) (k : Nat) :
    (d.write i w).get k = if k = i then w else d.get k := by
  by_cases below : k < d.size
  · rw [get_of_lt below, get_of_lt (d := d.write i w) below, write_place w (housed.place_lt inside)]
  · rw [get_of_ge (by simpa using below), get_of_ge (by simpa using below), if_neg (by omega)]

/-- Writing elements one after the other from place `front` on. -/
theorem foldl_write_getD (f : Nat → Word) (front n : Nat) (b : Array Word) (room : front + n ≤ b.size) :
    let b' := (List.range n).foldl (fun b i => b.setIfInBounds (front + i) (f i)) b
    b'.size = b.size ∧ ∀ i, i < n → b'.getD (front + i) Word.undefined = f i := by
  induction n with
  | zero => simp
  | succ n ih =>
    obtain ⟨size, values⟩ := ih (by omega)
    simp only [List.range_succ, List.foldl_append, List.foldl_cons, List.foldl_nil, Array.size_setIfInBounds]
    refine ⟨size, fun i below => ?_⟩
    rw [Array.getD_eq_getD_getElem?, Array.getElem?_setIfInBounds]
    by_cases last : n = i
    · subst last
      rw [if_pos rfl, if_pos (by omega)]
      rfl
    · rw [if_neg (by omega), ← Array.getD_eq_getD_getElem?]
      exact values i (by omega)

theorem rehouse_backing_size {front total : Nat} (room : front + d.size ≤ total) :
    (d.rehouse front total).backing.size = total := by
  have := (foldl_write_getD d.get front d.size (Array.replicate total Word.null) (by simpa using room)).1
  simpa [rehouse] using this

theorem rehouse_housed {front total : Nat} (room : front + d.size ≤ total) :
    (d.rehouse front total).Housed := by
  rw [Housed, rehouse_backing_size room]
  exact room

theorem rehouse_get {front total : Nat} (room : front + d.size ≤ total) (k : Nat) :
    (d.rehouse front total).get k = d.get k := by
  by_cases below : k < d.size
  · rw [get_of_lt (d := d.rehouse front total) below]
    exact (foldl_write_getD d.get front d.size _ (by simpa using room)).2 k below
  · rw [get_of_ge (Nat.not_lt.1 below), get_of_ge (d := d.rehouse front total) (Nat.not_lt.1 below)]

/-- The number of places from the front on that `reserve` sees to. -/
theorem reserve_spec (housed : d.Housed) (n : Nat) : (d.reserve n).Housed ∧ (d.reserve n).size = d.size ∧
    (d.reserve n).headroom + n ≤ (d.reserve n).backing.size ∧ ∀ k, (d.reserve n).get k = d.get k := by
  unfold Housed at housed
  unfold reserve capacity
  split
  next fits =>
    exact ⟨housed, rfl, by omega, fun _ => rfl⟩
  next =>
    have room : 0 + d.size ≤ max (2 * d.backing.size) n := by omega
    refine ⟨rehouse_housed room, rfl, ?_, rehouse_get room⟩
    rw [rehouse_backing_size room]
    simp only [rehouse]
    omega

theorem clear_spec (a n : Nat) (room : d.headroom + (a + n) ≤ d.backing.size) :
    (d.clear a n).size = d.size ∧ (d.clear a n).headroom = d.headroom ∧
      (d.clear a n).backing.size = d.backing.size ∧
      ∀ k, (d.clear a n).place k = if a ≤ k ∧ k < a + n then Word.undefined else d.place k := by
  induction n generalizing d a with
  | zero =>
    refine ⟨rfl, rfl, rfl, fun k => ?_⟩
    rw [if_neg (by omega)]
    rfl
  | succ n ih =>
    obtain ⟨size, headroom, backing, places⟩ := @ih (d.write a Word.undefined) (a + 1) (by simp; omega)
    have first : d.clear a (n + 1) = (d.write a Word.undefined).clear (a + 1) n := by
      simp only [clear, List.range'_succ, List.foldl_cons]
    rw [first]
    refine ⟨size, headroom, by rw [backing, write_backing_size], fun k => ?_⟩
    rw [places, write_place _ (by omega)]
    by_cases first : k = a
    · subst first
      rw [if_neg (by omega), if_pos rfl, if_pos (by omega)]
    · by_cases later : a + 1 ≤ k ∧ k < a + 1 + n
      · rw [if_pos later, if_pos (by omega)]
      · rw [if_neg later, if_neg first, if_neg (by omega)]

/-- Storing at an index: past the end the queue is padded with undefined. -/
theorem store_spec (housed : d.Housed) (i : Nat) (w : Word) : (d.store i w).Housed ∧
    (d.store i w).size = max d.size (i + 1) ∧ ∀ k, (d.store i w).get k = if k = i then w else d.get k := by
  unfold store
  split
  next inside =>
    exact ⟨by simpa [Housed] using housed, by rw [write_size]; omega, write_get housed inside w⟩
  next outside =>
    obtain ⟨_, size, room, values⟩ := reserve_spec housed (i + 1)
    obtain ⟨_, headroom, backing, places⟩ := clear_spec (d := d.reserve (i + 1)) d.size (i - d.size) (by omega)
    generalize (d.reserve (i + 1)).clear d.size (i - d.size) = c at headroom backing places
    refine ⟨?_, by simp only; omega, fun k => ?_⟩
    · simp only [Housed, write_headroom, write_backing_size]
      omega
    · have place_eq : ∀ k, place { c.write i w with size := i + 1 } k = (c.write i w).place k := fun _ => rfl
      by_cases below : k < i + 1
      · rw [get_of_lt (show k < Deque.size { c.write i w with size := i + 1 } from below), place_eq,
          write_place w (by omega), places]
        by_cases last : k = i
        · simp [last]
        · rw [if_neg last, if_neg last]
          by_cases old : k < d.size
          · rw [if_neg (by omega), ← values k, get_of_lt (by omega)]
          · rw [if_pos (by omega), get_of_ge (by omega)]
      · rw [get_of_ge (show Deque.size { c.write i w with size := i + 1 } ≤ k by simp only; omega),
          if_neg (by omega), get_of_ge (by omega)]

theorem append_spec (housed : d.Housed) (w : Word) : (d.append w).Housed ∧ (d.append w).size = d.size + 1 ∧
    ∀ k, (d.append w).get k = if k = d.size then w else d.get k := by
  obtain ⟨housed', size, values⟩ := store_spec housed d.size w
  exact ⟨housed', by rw [append, size]; omega, values⟩

theorem pop_spec (housed : d.Housed) : d.pop.2.Housed ∧ d.pop.2.size = d.size - 1 ∧
    ∀ k, d.pop.2.get k = if k < d.size - 1 then d.get k else Word.undefined := by
  unfold pop
  split
  next empty =>
    refine ⟨housed, by simp [empty], fun k => ?_⟩
    rw [if_neg (by omega)]
    exact get_of_ge (d := d) (by omega)
  next some =>
    refine ⟨?_, rfl, fun k => ?_⟩
    · unfold Housed at housed ⊢
      simp only [write_headroom, write_backing_size]
      omega
    · split
      next below =>
        have := write_get housed (i := d.size - 1) (by omega) Word.undefined k
        rw [if_neg (by omega), get_of_lt (by simp; omega)] at this
        exact (get_of_lt below).trans this
      next above => exact get_of_ge (Nat.not_lt.1 above)

theorem shift_spec (housed : d.Housed) : d.shift.2.Housed ∧ d.shift.2.size = d.size - 1 ∧
    ∀ k, d.shift.2.get k = d.get (k + 1) := by
  unfold shift
  split
  next empty =>
    refine ⟨housed, by simp [empty], fun k => ?_⟩
    exact (get_of_ge (d := d) (by omega)).trans (get_of_ge (by omega)).symm
  next some =>
    refine ⟨?_, rfl, fun k => ?_⟩
    · unfold Housed at housed ⊢
      simp only [write_backing_size]
      omega
    · by_cases below : k < d.size - 1
      · have moved : place { d.write 0 Word.undefined with headroom := d.headroom + 1, size := d.size - 1 } k =
            (d.write 0 Word.undefined).place (k + 1) := by
          simp only [place, write]
          congr 1
          omega
        rw [get_of_lt (show k < d.size - 1 from below), moved, write_place _ (housed.place_lt (by omega)),
          if_neg (by omega), get_of_lt (by omega)]
      · rw [get_of_ge (show d.size - 1 ≤ k by omega), get_of_ge (by omega)]

/-- With headroom, the place before the first element is free for another one. -/
theorem front_spec (housed : d.Housed) (free : 0 < d.headroom) (w : Word) :
    let u : Deque := ⟨d.backing.setIfInBounds (d.headroom - 1) w, d.headroom - 1, d.size + 1⟩
    u.Housed ∧ ∀ k, u.get k = if k = 0 then w else d.get (k - 1) := by
  unfold Housed at housed
  refine ⟨by simp only [Housed, Array.size_setIfInBounds]; omega, fun k => ?_⟩
  by_cases below : k < d.size + 1
  · rw [get_of_lt (show k < Deque.size ⟨_, _, d.size + 1⟩ from below)]
    simp only [place, Array.getD_eq_getD_getElem?, Array.getElem?_setIfInBounds]
    by_cases first : k = 0
    · rw [if_pos (by omega), if_pos (by omega), if_pos first]
      rfl
    · rw [if_neg (by omega), if_neg first, get_of_lt (by omega), place, Array.getD_eq_getD_getElem?]
      congr 2
      omega
  · rw [get_of_ge (show Deque.size ⟨_, _, d.size + 1⟩ ≤ k by simpa using below), if_neg (by omega),
      get_of_ge (by omega)]

theorem prepend_spec (housed : d.Housed) (w : Word) : (d.prepend w).Housed ∧
    (d.prepend w).size = d.size + 1 ∧
    ∀ k, (d.prepend w).get k = if k = 0 then w else d.get (k - 1) := by
  unfold prepend
  by_cases none : d.headroom = 0
  · have room : max d.size minCapacity + d.size ≤ max d.size minCapacity + d.backing.size := by
      unfold Housed at housed
      omega
    obtain ⟨housed', values⟩ := front_spec (rehouse_housed room) (by simp only [rehouse, minCapacity]; omega) w
    simp only [none, if_true]
    refine ⟨housed', rfl, fun k => ?_⟩
    rw [values, rehouse_get room]
  · obtain ⟨housed', values⟩ := front_spec housed (by omega) w
    simp only [none, if_false]
    exact ⟨housed', trivial, values⟩

/-- The same elements in the same places; the places that hold none may differ. -/
structure Keeps (d d' : Deque) : Prop where
  size : d'.size = d.size
  headroom : d'.headroom = d.headroom
  places : d'.backing.size = d.backing.size
  get : ∀ k, d'.get k = d.get k

theorem Keeps.refl (d : Deque) : d.Keeps d := ⟨rfl, rfl, rfl, fun _ => rfl⟩

theorem Keeps.housed {d' : Deque} (keeps : d.Keeps d') (housed : d.Housed) : d'.Housed := by
  unfold Housed
  rw [keeps.size, keeps.headroom, keeps.places]
  exact housed

theorem clear_keeps (housed : d.Housed) : d.Keeps (d.clear d.size (d.capacity - d.size)) := by
  obtain ⟨size, headroom, backing, places⟩ := clear_spec d.size (d.capacity - d.size) housed.rest_le
  refine ⟨size, headroom, backing, fun k => ?_⟩
  by_cases below : k < d.size
  · rw [get_of_lt below, get_of_lt (by omega), places, if_neg (by omega)]
  · rw [get_of_ge (by omega), get_of_ge (by omega)]

/-- A write is done, or it is refused and the elements stay. -/
theorem put_cases (housed : d.Housed) (i : Int64) (w : Word) :
    (0 ≤ i ∧ d.put i w = (none, d.store i.toNatClampNeg w)) ∨
      ∃ refusal d', d.put i w = (some refusal, d') ∧ d.Keeps d' := by
  unfold put
  simp only
  split
  next => exact .inr ⟨_, d, rfl, .refl d⟩
  next natural =>
    have natural : 0 ≤ i := Int64.not_lt.1 natural
    split
    next => exact .inl ⟨natural, rfl⟩
    next =>
      split
      next => exact .inr ⟨_, _, rfl, clear_keeps housed⟩
      next =>
        split
        next => exact .inr ⟨_, d, rfl, .refl d⟩
        next => exact .inl ⟨natural, rfl⟩

theorem push_cases (d : Deque) (w : Word) :
    d.push w = (none, d.append w) ∨ ∃ refusal, d.push w = (some refusal, d) := by
  unfold push
  split
  next refusal _ => exact .inr ⟨refusal, rfl⟩
  next => exact .inl rfl

theorem unshift_cases (d : Deque) (w : Word) :
    d.unshift w = (none, d.prepend w) ∨ ∃ refusal, d.unshift w = (some refusal, d) := by
  unfold unshift
  simp only
  split
  next => exact .inr ⟨_, rfl⟩
  next => exact .inl rfl

/-- A refusal comes of a length that memory has no room for or of an index without a natural successor. -/
def Refusal.Due : Refusal → Prop
  | .negativeIndex => True
  | .tooLong places => maxBytes < wordBytes * places
  | .overrun i _ => i = Int64.maxValue

theorem maxBytes_lt {places : Nat} (long : maxPlaces < places) : maxBytes < wordBytes * places := by
  simp only [maxPlaces, maxBytes, wordBytes] at long ⊢
  omega

theorem refusal?_due {n : Nat} {refusal : Refusal} (refused : d.refusal? n = some refusal) : refusal.Due := by
  unfold refusal? at refused
  simp only at refused
  split at refused
  next long =>
    cases refused
    exact maxBytes_lt long.2
  next => cases refused

theorem put_due {i : Int64} {w : Word} {refusal : Refusal} (refused : (d.put i w).1 = some refusal) :
    refusal.Due := by
  unfold put at refused
  simp only at refused
  split at refused
  next =>
    cases refused
    trivial
  next =>
    split at refused
    next => cases refused
    next =>
      split at refused
      next last =>
        cases refused
        exact last
      next =>
        split at refused
        next here =>
          cases refused
          exact refusal?_due here
        next => cases refused

theorem push_due {w : Word} {refusal : Refusal} (refused : (d.push w).1 = some refusal) : refusal.Due := by
  unfold push at refused
  split at refused
  next here =>
    cases refused
    exact refusal?_due here
  next => cases refused

theorem unshift_due {w : Word} {refusal : Refusal} (refused : (d.unshift w).1 = some refusal) : refusal.Due := by
  unfold unshift at refused
  simp only at refused
  split at refused
  next long =>
    cases refused
    exact maxBytes_lt long.2
  next => cases refused

theorem ofList_spec (words : List Word) : (ofList words).Housed ∧ (ofList words).size = words.length ∧
    ∀ k, (ofList words).get k = words.getD k Word.undefined := by
  have pushed (d : Deque) (housed : d.Housed) : (words.foldl append d).Housed ∧
      (words.foldl append d).size = d.size + words.length ∧
      ∀ k, (words.foldl append d).get k =
        if k < d.size then d.get k else words.getD (k - d.size) Word.undefined := by
    induction words generalizing d with
    | nil =>
      refine ⟨housed, rfl, fun k => ?_⟩
      split
      · rfl
      · simpa using get_of_ge (by omega)
    | cons w words ih =>
      obtain ⟨housed', size', values'⟩ := append_spec housed w
      obtain ⟨result, size, values⟩ := ih (d.append w) housed'
      simp only [List.foldl_cons, List.length_cons]
      refine ⟨result, by omega, fun k => ?_⟩
      rw [values, size']
      by_cases old : k < d.size
      · rw [if_pos (by omega), if_pos old, values', if_neg (by omega)]
      · rw [if_neg old]
        by_cases here : k = d.size
        · rw [if_pos (by omega), values', if_pos here, here, Nat.sub_self, List.getD_cons_zero]
        · rw [if_neg (by omega), show k - d.size = k - (d.size + 1) + 1 by omega, List.getD_cons_succ]
  obtain ⟨housed, size, values⟩ := pushed (withCapacity words.length) (withCapacity_housed _)
  refine ⟨housed, size.trans (Nat.zero_add _), fun k => ?_⟩
  rw [ofList, values]
  rfl

end Gradual.Deque
