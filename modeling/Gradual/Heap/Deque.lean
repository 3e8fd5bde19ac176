import Gradual.Value.Word

/-!
The elements of an array: a double-ended queue in one backing array. Taking from the front moves the
front forward instead of copying, and the room this leaves is used up again by adding to the front.
Indices are 64-bit integers, and a backing array is as long as memory can be at most; an operation
that asks for more is refused.
-/
namespace Gradual

/-- The most bytes that can be allocated at once. -/
def maxBytes : Nat := 1 <<< 48

structure Deque where
  backing : Array Word
  /-- Free places in front of the first element. -/
  headroom : Nat
  size : Nat
  deriving DecidableEq, Repr

namespace Deque

/-- The least number of places to allocate at once. -/
def minCapacity : Nat := 4

def wordBytes : Nat := 8

/-- The most places of a backing array. -/
def maxPlaces : Nat := maxBytes / wordBytes

def withCapacity (capacity : Nat) : Deque := ⟨Array.replicate (max capacity minCapacity) Word.null, 0, 0⟩

/-- Elements that fit from the front on without a new backing array. -/
def capacity (d : Deque) : Nat := d.backing.size - d.headroom

def get (d : Deque) (i : Nat) : Word :=
  if i < d.size then d.backing.getD (d.headroom + i) Word.undefined else Word.undefined

def toList (d : Deque) : List Word := (List.range d.size).map d.get

/-- A backing array of `total` places with the elements from place `front` on. -/
def rehouse (d : Deque) (front total : Nat) : Deque :=
  { backing := (List.range d.size).foldl (fun b i => b.setIfInBounds (front + i) (d.get i))
      (Array.replicate total Word.null)
    headroom := front
    size := d.size }

/-- Room for `n` elements from the front on. -/
def reserve (d : Deque) (n : Nat) : Deque :=
  if n ≤ d.capacity then d else d.rehouse 0 (max (2 * d.backing.size) n)

def write (d : Deque) (i : Nat) (w : Word) : Deque :=
  { d with backing := d.backing.setIfInBounds (d.headroom + i) w }

/-- Undefined in the `n` places from `i` on. -/
def clear (d : Deque) (i n : Nat) : Deque :=
  (List.range' i n).foldl (fun d j => d.write j Word.undefined) d

/-- Stores at `i`. Past the end the queue grows, with undefined in the gap. -/
def store (d : Deque) (i : Nat) (w : Word) : Deque :=
  if i < d.size then d.write i w
  else { ((d.reserve (i + 1)).clear d.size (i - d.size)).write i w with size := i + 1 }

def append (d : Deque) (w : Word) : Deque := d.store d.size w

/-- Adds in front. Without headroom the elements move to a larger backing array first. -/
def prepend (d : Deque) (w : Word) : Deque :=
  let r :=
    if d.headroom = 0 then
      let front := max d.size minCapacity
      d.rehouse front (front + d.backing.size)
    else d
  { backing := r.backing.setIfInBounds (r.headroom - 1) w
    headroom := r.headroom - 1
    size := r.size + 1 }

def ofList (words : List Word) : Deque := words.foldl append (withCapacity words.length)

/-- Why an element is not added. -/
inductive Refusal where
  | negativeIndex
  /-- No backing array is of that length. -/
  | tooLong (places : Nat)
  /-- Writing went on up to the end of the backing array. -/
  | overrun (i : Int64) (places : Nat)
  deriving DecidableEq, Repr

/-- What stands against room for `n` elements from the front on. -/
def refusal? (d : Deque) (n : Nat) : Option Refusal :=
  let places := max (2 * d.backing.size) n
  if d.capacity < n ∧ maxPlaces < places then some (.tooLong places) else none

/-- Stores at an index. The length that goes with the largest index is not an integer any more but
wraps around; so there seems to be room, and the gap is filled until the backing array ends. -/
def put (d : Deque) (i : Int64) (w : Word) : Option Refusal × Deque :=
  let k := i.toNatClampNeg
  if i < 0 then (some .negativeIndex, d)
  else if k < d.size then (none, d.store k w)
  else if i = Int64.maxValue then (some (.overrun i d.backing.size), d.clear d.size (d.capacity - d.size))
  else
    match d.refusal? (k + 1) with
    | some refusal => (some refusal, d)
    | none => (none, d.store k w)

def push (d : Deque) (w : Word) : Option Refusal × Deque :=
  match d.refusal? (d.size + 1) with
  | some refusal => (some refusal, d)
  | none => (none, d.append w)

def unshift (d : Deque) (w : Word) : Option Refusal × Deque :=
  let places := max d.size minCapacity + d.backing.size
  if d.headroom = 0 ∧ maxPlaces < places then (some (.tooLong places), d) else (none, d.prepend w)

/-- Takes the last element, undefined if there is none. -/
def pop (d : Deque) : Word × Deque :=
  if d.size = 0 then (Word.undefined, d)
  else
    let last := d.size - 1
    (d.get last, { d.write last Word.undefined with size := last })

/-- Takes the first element, undefined if there is none. -/
def shift (d : Deque) : Word × Deque :=
  if d.size = 0 then (Word.undefined, d)
  else
    (d.get 0, { d.write 0 Word.undefined with headroom := d.headroom + 1, size := d.size - 1 })

end Deque

end Gradual
