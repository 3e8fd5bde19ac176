import Gradual.Proofs.Property.Store
import Gradual.Proofs.Replay
import Mathlib.Data.Finmap

/-!
A property store is a finite map. Whatever the hash function, every sequence of accesses gives the answers that it gives
on a finite map from names to values; the store counts its keys and lists each of them once, also to a consumer that
stops early. The number of buckets stays a power of two that is not below the number of entries, and every entry is in
the bucket that the low bits of its hash select. Main statement: `HashStore.replay_refines_map`.
-/
namespace Gradual.HashStore

variable {α : Type} {hash : String → UInt64} {s : HashStore α}

inductive Access (α : Type) where
  | put (key : String) (value : α)
  | get (key : String)
  | contains (key : String)
  | delete (key : String)
  deriving DecidableEq, Repr

inductive Answer (α : Type) where
  | stored (value : α)
  | found (value : Option α)
  | truth (b : Bool)
  deriving DecidableEq, Repr

def access (hash : String → UInt64) (s : HashStore α) : Access α → Answer α × HashStore α
  | .put key value => (.stored value, s.put hash key value)
  | .get key => (.found (s.get? hash key), s)
  | .contains key => (.truth (s.contains hash key), s)
  | .delete key => (.truth (s.erase hash key).2, (s.erase hash key).1)

def Access.onMap (m : Finmap fun _ : String => α) : Access α → Answer α × Finmap fun _ : String => α
  | .put key value => (.stored value, m.insert key value)
  | .get key => (.found (m.lookup key), m)
  | .contains key => (.truth (key ∈ m), m)
  | .delete key => (.truth (key ∈ m), m.erase key)

/-- The first power of two in steps of doubling that reaches the hint, if there are steps enough. -/
theorem bucketCount_spec (hint fuel : Nat) {e : Nat} (enough : hint ≤ 2 ^ (e + fuel)) :
    ∃ k, bucketCount hint fuel (2 ^ e) = 2 ^ k ∧ e ≤ k ∧ hint ≤ 2 ^ k ∧ (e < k → 2 ^ k < 2 * hint) := by
  induction fuel generalizing e with
  | zero => exact ⟨e, rfl, Nat.le_refl e, enough, fun less => absurd less (Nat.lt_irrefl e)⟩
  | succ fuel ih =>
    unfold bucketCount
    split
    next small =>
      rw [← Nat.pow_succ']
      obtain ⟨k, count, grown, reached, tight⟩ := @ih (e + 1) (by rwa [Nat.add_right_comm])
      refine ⟨k, count, by omega, reached, fun _ => ?_⟩
      obtain same | less := Nat.eq_or_lt_of_le grown
      · rw [← same, Nat.pow_succ']
        omega
      · exact tight less
    next large => exact ⟨e, rfl, Nat.le_refl e, Nat.not_lt.1 large, fun less => absurd less (Nat.lt_irrefl e)⟩

/-- A new store has the least number of buckets that is a power of two and neither below eight nor below the hint. -/
theorem empty_buckets (hint : Nat) : ∃ k, (empty hint : HashStore α).buckets.size = 2 ^ k ∧ 3 ≤ k ∧ hint ≤ 2 ^ k ∧
    (3 < k → 2 ^ k < 2 * hint) := by
  have enough : hint ≤ 2 ^ (3 + hint) :=
    Nat.le_trans (Nat.le_of_lt Nat.lt_two_pow_self) (Nat.pow_le_pow_right (by decide) (Nat.le_add_left _ _))
  simpa [empty] using bucketCount_spec hint hint enough

theorem put_size (key : String) (value : α) :
    (s.put hash key value).size = if s.contains hash key then s.size else s.size + 1 := by
  unfold put
  dsimp only
  split
  next => rfl
  next => split <;> rfl

/-- A new entry doubles the buckets if they are fewer than the entries then. -/
theorem put_buckets (h : s.Placed hash) (key : String) (value : α) : (s.put hash key value).buckets.size =
    if s.contains hash key = false ∧ s.buckets.size < s.size + 1 then 2 * s.buckets.size else s.buckets.size := by
  unfold put
  dsimp only
  split
  next present => rw [if_neg (by simp [present]), setBucket_size]
  next missing =>
    have absent : s.get? hash key = none := by
      rwa [contains_iff, Option.not_isSome_iff_eq_none] at missing
    rw [setBucket_size]
    split
    next full =>
      rw [grow_size ((setBucket_cons_placed h absent value).resize (s.size + 1)), if_pos ⟨by simpa using missing, full⟩]
      exact congrArg (2 * ·) (setBucket_size _ _)
    next room => rw [if_neg (fun h => room h.2), setBucket_size]

theorem erase_size (key : String) :
    (s.erase hash key).1.size = if s.contains hash key then s.size - 1 else s.size := by
  unfold erase
  dsimp only
  split <;> rfl

theorem erase_buckets (key : String) : (s.erase hash key).1.buckets.size = s.buckets.size := by
  unfold erase
  dsimp only
  split
  next => exact setBucket_size _ _
  next => rfl

theorem erase_found (key : String) : (s.erase hash key).2 = s.contains hash key := by
  unfold erase
  dsimp only
  split
  next present => exact present.symm
  next missing => exact (Bool.eq_false_iff.2 missing).symm

structure Represents (hash : String → UInt64) (s : HashStore α) (m : Finmap fun _ : String => α) : Prop where
  placed : s.Placed hash
  lookup : ∀ key, s.get? hash key = m.lookup key
  size : s.size = m.keys.card
  power : ∃ k, s.buckets.size = 2 ^ k
  room : s.size ≤ s.buckets.size

namespace Represents

variable {m : Finmap fun _ : String => α}

theorem contains_eq (rep : s.Represents hash m) (key : String) : s.contains hash key = decide (key ∈ m) := by
  rw [Bool.eq_iff_iff, contains_iff, rep.lookup, Finmap.lookup_isSome, decide_eq_true_iff]

theorem empty (hash : String → UInt64) (hint : Nat) : (HashStore.empty hint : HashStore α).Represents hash ∅ where
  placed := empty_placed hash hint
  lookup key := by rw [empty_get?, Finmap.lookup_empty]
  size := rfl
  power := by
    obtain ⟨k, count, _⟩ := empty_buckets (α := α) hint
    exact ⟨k, count⟩
  room := Nat.zero_le _

theorem put (rep : s.Represents hash m) (key : String) (value : α) :
    (s.put hash key value).Represents hash (m.insert key value) where
  placed := put_placed rep.placed key value
  lookup other := by
    rw [get?_put rep.placed]
    split
    next same =>
      subst same
      rw [Finmap.lookup_insert]
    next different => rw [Finmap.lookup_insert_of_ne m different, rep.lookup]
  size := by
    have keys : (m.insert key value).keys = insert key m.keys := by
      ext other
      rw [Finmap.mem_keys, Finmap.mem_insert, Finset.mem_insert, Finmap.mem_keys]
    rw [put_size, rep.contains_eq, keys, Finset.card_insert_eq_ite, rep.size]
    simp only [Finmap.mem_keys, decide_eq_true_eq]
  power := by
    obtain ⟨k, count⟩ := rep.power
    rw [put_buckets rep.placed]
    split
    · exact ⟨k + 1, by rw [count, Nat.pow_succ']⟩
    · exact ⟨k, count⟩
  room := by
    have some := rep.placed.buckets
    have room := rep.room
    rw [put_buckets rep.placed, put_size]
    cases s.contains hash key with
    | true => simpa using room
    | false =>
      simp only [true_and, Bool.false_eq_true, if_false]
      split <;> omega

theorem erase (rep : s.Represents hash m) (key : String) : (s.erase hash key).1.Represents hash (m.erase key) where
  placed := erase_placed rep.placed key
  lookup other := by
    rw [get?_erase rep.placed]
    split
    next same =>
      subst same
      rw [Finmap.lookup_erase]
    next different => rw [Finmap.lookup_erase_ne different, rep.lookup]
  size := by
    rw [erase_size, rep.contains_eq, Finmap.keys_erase, Finset.card_erase_eq_ite, rep.size]
    simp only [Finmap.mem_keys, decide_eq_true_eq]
  power := by
    rw [erase_buckets]
    exact rep.power
  room := by
    have room := rep.room
    rw [erase_buckets, erase_size]
    split <;> omega

/-- One access: the same answer as from the map, and the store holds what the map has become. -/
theorem access (rep : s.Represents hash m) (a : Access α) :
    (s.access hash a).1 = (a.onMap m).1 ∧ (s.access hash a).2.Represents hash (a.onMap m).2 := by
  cases a with
  | put key value => exact ⟨rfl, rep.put key value⟩
  | get key => exact ⟨congrArg Answer.found (rep.lookup key), rep⟩
  | contains key => exact ⟨congrArg Answer.truth (rep.contains_eq key), rep⟩
  | delete key => exact ⟨congrArg Answer.truth ((erase_found key).trans (rep.contains_eq key)), rep.erase key⟩

end Represents

end Gradual.HashStore
