import Gradual.Property.HashStore
import Mathlib.Data.List.Nodup

/-!
Property stores as finite maps. A store is well placed if every entry is in the bucket of its hash, the
hash is that of its key, and no bucket has a key twice; the hash function itself may collide at will.
Reading after `put` and `erase` then follows the laws of a map, through growth too.
-/
namespace Gradual.HashStore

variable {α : Type} {hash : String → UInt64} {s : HashStore α}

def entriesAt (s : HashStore α) (i : Nat) : List (HashEntry α) := s.buckets.getD i []

structure Placed (hash : String → UInt64) (s : HashStore α) : Prop where
  buckets : 0 < s.buckets.size
  hashed : ∀ i, ∀ e ∈ s.entriesAt i, e.hash = hash e.key
  indexed : ∀ i, ∀ e ∈ s.entriesAt i, s.index e.hash = i
  distinct : ∀ i, ((s.entriesAt i).map (·.key)).Nodup

theorem Placed.index_lt (h : s.Placed hash) (x : UInt64) : s.index x < s.buckets.size :=
  Nat.mod_lt _ h.buckets

theorem isAt_iff {x : UInt64} {key : String} {e : HashEntry α} :
    HashEntry.isAt x key e = true ↔ e.hash = x ∧ e.key = key := by
  simp [HashEntry.isAt]

/-- Within one bucket a key has one entry. -/
theorem Placed.eq_of_key (h : s.Placed hash) {i : Nat} {d e : HashEntry α} (left : d ∈ s.entriesAt i)
    (right : e ∈ s.entriesAt i) (same : d.key = e.key) : d = e :=
  List.inj_on_of_nodup_map (h.distinct i) left right same

theorem Placed.get?_eq_some_iff (h : s.Placed hash) {key : String} {v : α} :
    s.get? hash key = some v ↔ ∃ i, ∃ e ∈ s.entriesAt i, e.key = key ∧ e.value = v := by
  unfold get? find?
  constructor
  · intro found
    obtain ⟨e, entry, rfl⟩ := Option.map_eq_some_iff.1 found
    exact ⟨_, e, List.mem_of_find?_eq_some entry, (isAt_iff.1 (List.find?_some entry)).2, rfl⟩
  · rintro ⟨i, e, member, rfl, rfl⟩
    have here : s.index (hash e.key) = i := h.hashed i e member ▸ h.indexed i e member
    have member' : e ∈ s.bucket (hash e.key) := by rw [bucket, here]; exact member
    cases found : (s.bucket (hash e.key)).find? (HashEntry.isAt (hash e.key) e.key) with
    | none =>
      have := List.find?_eq_none.1 found e member'
      simp [isAt_iff, h.hashed i e member] at this
    | some d =>
      have same := (isAt_iff.1 (List.find?_some found)).2
      have left : d ∈ s.entriesAt i := by
        have := List.mem_of_find?_eq_some found
        rwa [bucket, here] at this
      simp [h.eq_of_key left member same]

theorem Placed.get?_eq_none_iff (h : s.Placed hash) {key : String} :
    s.get? hash key = none ↔ ∀ i, ∀ e ∈ s.entriesAt i, e.key ≠ key := by
  constructor
  · intro missing i e member same
    have := h.get?_eq_some_iff.2 ⟨i, e, member, same, rfl⟩
    simp [missing] at this
  · intro absent
    cases found : s.get? hash key with
    | none => rfl
    | some v =>
      obtain ⟨i, e, member, same, _⟩ := h.get?_eq_some_iff.1 found
      exact absurd same (absent i e member)

theorem contains_iff {key : String} : s.contains hash key = true ↔ (s.get? hash key).isSome := by
  simp [contains, get?]

theorem setBucket_entriesAt (h : s.Placed hash) (x : UInt64) (es : List (HashEntry α)) (i : Nat) :
    (s.setBucket x es).entriesAt i = if i = s.index x then es else s.entriesAt i := by
  have inside := h.index_lt x
  simp only [setBucket, entriesAt, Array.getD_eq_getD_getElem?, Array.getElem?_setIfInBounds, inside]
  split
  next same => subst same; simp
  next other => simp [Ne.symm other]

@[simp] theorem setBucket_size (x : UInt64) (es : List (HashEntry α)) :
    (s.setBucket x es).buckets.size = s.buckets.size := by
  simp [setBucket]

@[simp] theorem setBucket_index (x y : UInt64) (es : List (HashEntry α)) :
    (s.setBucket x es).index y = s.index y := by
  simp [index]

theorem bucketCount_pos (hint fuel count : Nat) (h : 0 < count) : 0 < bucketCount hint fuel count := by
  induction fuel generalizing count with
  | zero => exact h
  | succ fuel ih =>
    unfold bucketCount
    split
    · exact ih _ (by omega)
    · exact h

theorem empty_entriesAt (hint i : Nat) : (empty hint : HashStore α).entriesAt i = [] := by
  simp only [empty, entriesAt, Array.getD_eq_getD_getElem?, Array.getElem?_replicate]
  split <;> rfl

theorem empty_placed (hash : String → UInt64) (hint : Nat) : (empty hint : HashStore α).Placed hash := by
  refine ⟨?_, ?_, ?_, ?_⟩
  · simpa [empty] using bucketCount_pos hint hint 8 (by omega)
  all_goals simp [empty_entriesAt]

theorem empty_get? (hint : Nat) (key : String) : (empty hint : HashStore α).get? hash key = none :=
  (empty_placed hash hint).get?_eq_none_iff.2 (by simp [empty_entriesAt])

/-- Entries linked one by one stand in front of what a bucket had, the last one first. -/
theorem foldl_link_getD (es : List (HashEntry α)) (buckets : Array (List (HashEntry α)))
    (some : 0 < buckets.size) (i : Nat) :
    (es.foldl link buckets).size = buckets.size ∧ (es.foldl link buckets).getD i [] =
      (es.filter fun e => e.hash.toNat % buckets.size = i).reverse ++ buckets.getD i [] := by
  induction es generalizing buckets with
  | nil => simp
  | cons e es ih =>
    have size : (link buckets e).size = buckets.size := by simp [link]
    obtain ⟨size', rest⟩ := ih (link buckets e) (size ▸ some)
    rw [size] at size' rest
    refine ⟨size', rest.trans ?_⟩
    have inside : e.hash.toNat % buckets.size < buckets.size := Nat.mod_lt _ some
    simp only [link, Array.getD_eq_getD_getElem?, Array.getElem?_modify]
    by_cases here : e.hash.toNat % buckets.size = i
    · subst here
      simp [inside]
    · simp [here]

/-- Keys are distinct in the whole store: equal keys have equal hashes and so meet in one bucket. -/
theorem Placed.keys_nodup (h : s.Placed hash) : s.keys.Nodup := by
  have inBucket (i : Nat) (below : i < s.buckets.toList.length) :
      s.buckets.toList[i] = s.entriesAt i := by
    have : i < s.buckets.size := by simpa using below
    simp [entriesAt, this]
  unfold keys entries
  rw [List.map_flatten, List.nodup_flatten]
  constructor
  · intro l member
    obtain ⟨bucket, inside, rfl⟩ := List.mem_map.1 member
    obtain ⟨i, below, rfl⟩ := List.getElem_of_mem inside
    exact inBucket i below ▸ h.distinct i
  · rw [List.pairwise_map, List.pairwise_iff_getElem]
    intro i j hi hj less key left right
    obtain ⟨d, dIn, rfl⟩ := List.mem_map.1 left
    obtain ⟨e, eIn, same⟩ := List.mem_map.1 right
    rw [inBucket i hi] at dIn
    rw [inBucket j hj] at eIn
    have hashes : d.hash = e.hash := by rw [h.hashed i d dIn, h.hashed j e eIn, same]
    have : i = j := by rw [← h.indexed i d dIn, ← h.indexed j e eIn, hashes]
    omega

theorem mem_entries {e : HashEntry α} : e ∈ s.entries ↔ ∃ i, e ∈ s.entriesAt i := by
  simp only [entries, List.mem_flatten, entriesAt, Array.getD_eq_getD_getElem?]
  constructor
  · rintro ⟨l, member, here⟩
    obtain ⟨i, below, rfl⟩ := List.getElem_of_mem member
    have : i < s.buckets.size := by simpa using below
    exact ⟨i, by simpa [this] using here⟩
  · rintro ⟨i, here⟩
    by_cases below : i < s.buckets.size
    · exact ⟨s.buckets[i], by simp, by simpa [below] using here⟩
    · simp [below] at here

theorem grow_entriesAt (h : s.Placed hash) (i : Nat) : s.grow.entriesAt i =
    (s.entries.filter fun e => e.hash.toNat % (2 * s.buckets.size) = i).reverse := by
  have some : 0 < (Array.replicate (2 * s.buckets.size) ([] : List (HashEntry α))).size := by
    have := h.buckets
    simp only [Array.size_replicate]
    omega
  rw [grow, entriesAt, (foldl_link_getD s.entries _ some i).2]
  simp only [Array.size_replicate, Array.getD_eq_getD_getElem?, Array.getElem?_replicate]
  split <;> simp

theorem grow_size (h : s.Placed hash) : s.grow.buckets.size = 2 * s.buckets.size := by
  have some : 0 < (Array.replicate (2 * s.buckets.size) ([] : List (HashEntry α))).size := by
    have := h.buckets
    simp only [Array.size_replicate]
    omega
  exact (foldl_link_getD s.entries _ some 0).1.trans Array.size_replicate

theorem grow_placed (h : s.Placed hash) : s.grow.Placed hash := by
  have old {i : Nat} {e : HashEntry α} (member : e ∈ s.grow.entriesAt i) :
      (∃ j, e ∈ s.entriesAt j) ∧ e.hash.toNat % (2 * s.buckets.size) = i := by
    rw [grow_entriesAt h] at member
    simpa [mem_entries] using member
  refine ⟨?_, fun i e member => ?_, fun i e member => ?_, fun i => ?_⟩
  · have := h.buckets
    rw [grow_size h]
    omega
  · obtain ⟨⟨j, member⟩, _⟩ := old member
    exact h.hashed j e member
  · rw [index, grow_size h]
    exact (old member).2
  · rw [grow_entriesAt h, List.map_reverse, List.nodup_reverse]
    exact (List.filter_sublist.map _).nodup h.keys_nodup

theorem grow_get? (h : s.Placed hash) (key : String) : s.grow.get? hash key = s.get? hash key := by
  apply Option.ext
  intro v
  rw [(grow_placed h).get?_eq_some_iff, h.get?_eq_some_iff]
  simp only [grow_entriesAt h, List.mem_reverse, List.mem_filter, mem_entries, decide_eq_true_eq]
  constructor
  · rintro ⟨i, e, ⟨⟨j, member⟩, _⟩, same⟩
    exact ⟨j, e, member, same⟩
  · rintro ⟨j, e, member, same⟩
    exact ⟨_, e, ⟨⟨j, member⟩, rfl⟩, same⟩

/-- A map over the entries of a bucket that leaves keys and hashes alone keeps the store well placed. -/
theorem setBucket_map_placed (h : s.Placed hash) (x : UInt64) (f : HashEntry α → HashEntry α)
    (key : ∀ e, (f e).key = e.key) (hashKept : ∀ e, (f e).hash = e.hash) :
    (s.setBucket x ((s.bucket x).map f)).Placed hash := by
  have from_old {i : Nat} {e : HashEntry α}
      (member : e ∈ (s.setBucket x ((s.bucket x).map f)).entriesAt i) :
      ∃ d ∈ s.entriesAt i, e.key = d.key ∧ e.hash = d.hash := by
    rw [setBucket_entriesAt h] at member
    split at member
    next same =>
      obtain ⟨d, inside, rfl⟩ := List.mem_map.1 member
      exact ⟨d, same ▸ inside, key d, hashKept d⟩
    next => exact ⟨e, member, rfl, rfl⟩
  refine ⟨by simpa using h.buckets, fun i e member => ?_, fun i e member => ?_, fun i => ?_⟩
  · obtain ⟨d, inside, sameKey, sameHash⟩ := from_old member
    rw [sameKey, sameHash, h.hashed i d inside]
  · obtain ⟨d, inside, _, sameHash⟩ := from_old member
    rw [setBucket_index, sameHash, h.indexed i d inside]
  · rw [setBucket_entriesAt h]
    split
    next =>
      rw [List.map_map, show (fun e => e.key) ∘ f = fun e => e.key from funext key]
      exact h.distinct _
    next => exact h.distinct i

/-- The store after a key that it does not have was put in front of its bucket. -/
theorem setBucket_cons_placed (h : s.Placed hash) {key : String} (absent : s.get? hash key = none)
    (value : α) : (s.setBucket (hash key) (⟨key, hash key, value⟩ :: s.bucket (hash key))).Placed hash := by
  have new_or_old {i : Nat} {e : HashEntry α}
      (member : e ∈ (s.setBucket (hash key) (⟨key, hash key, value⟩ :: s.bucket (hash key))).entriesAt i) :
      (e = ⟨key, hash key, value⟩ ∧ i = s.index (hash key)) ∨ e ∈ s.entriesAt i := by
    rw [setBucket_entriesAt h] at member
    split at member
    next same =>
      rcases List.mem_cons.1 member with rfl | inside
      · exact .inl ⟨rfl, same⟩
      · exact .inr (same ▸ inside)
    next => exact .inr member
  refine ⟨by simpa using h.buckets, fun i e member => ?_, fun i e member => ?_, fun i => ?_⟩
  · rcases new_or_old member with ⟨rfl, _⟩ | inside
    · rfl
    · exact h.hashed i e inside
  · rw [setBucket_index]
    rcases new_or_old member with ⟨rfl, rfl⟩ | inside
    · rfl
    · exact h.indexed i e inside
  · rw [setBucket_entriesAt h]
    split
    next =>
      rw [List.map_cons, List.nodup_cons]
      refine ⟨fun member => ?_, h.distinct _⟩
      obtain ⟨e, inside, same⟩ := List.mem_map.1 member
      exact h.get?_eq_none_iff.1 absent _ e inside same
    next => exact h.distinct i

/-- Neither the count of entries nor anything but the buckets matters to the placement of entries. -/
theorem Placed.resize (h : s.Placed hash) (n : Nat) : Placed hash { s with size := n } :=
  ⟨h.buckets, h.hashed, h.indexed, h.distinct⟩

theorem put_placed (h : s.Placed hash) (key : String) (value : α) : (s.put hash key value).Placed hash := by
  simp only [put]
  split
  next => exact setBucket_map_placed h _ _ (fun e => by split <;> rfl) fun e => by split <;> rfl
  next missing =>
    rw [contains_iff, Option.not_isSome_iff_eq_none] at missing
    have placed := (setBucket_cons_placed h missing value).resize (s.size + 1)
    split
    · exact grow_placed placed
    · exact placed

/-- A lookup in a store with one bucket replaced looks into that bucket or past it. -/
theorem get?_setBucket (h : s.Placed hash) (x : UInt64) (es : List (HashEntry α)) (key : String) :
    (s.setBucket x es).get? hash key =
      if s.index (hash key) = s.index x then (es.find? (HashEntry.isAt (hash key) key)).map (·.value)
      else s.get? hash key := by
  have bucket_eq : (s.setBucket x es).bucket (hash key) =
      if s.index (hash key) = s.index x then es else s.bucket (hash key) :=
    (congrArg (s.setBucket x es).entriesAt (setBucket_index x (hash key) es)).trans
      (setBucket_entriesAt h x es _)
  rw [get?, find?, bucket_eq]
  split <;> rfl

@[simp] theorem get?_resize (n : Nat) (key : String) :
    get? hash { s with size := n } key = s.get? hash key := rfl

theorem isAt_ne {key other : String} {x y : UInt64} {e : HashEntry α} (different : other ≠ key)
    (here : HashEntry.isAt y other e = true) : ¬HashEntry.isAt x key e = true :=
  fun there => different ((isAt_iff.1 here).2.symm.trans (isAt_iff.1 there).2)

theorem get?_put (h : s.Placed hash) (key : String) (value : α) (other : String) :
    (s.put hash key value).get? hash other = if other = key then some value else s.get? hash other := by
  simp only [put]
  split
  next present =>
    rw [get?_setBucket h, List.find?_map]
    have same_test : HashEntry.isAt (hash other) other ∘ (fun e : HashEntry α =>
        if HashEntry.isAt (hash key) key e then { e with value } else e) =
          HashEntry.isAt (hash other) other := by
      funext e
      simp only [Function.comp]
      split <;> rfl
    rw [same_test]
    by_cases same : other = key
    · subst same
      obtain ⟨e, found⟩ := Option.isSome_iff_exists.1 present
      rw [find?] at found
      simp [found, List.find?_some found]
    · rw [if_neg same]
      split
      next meet =>
        have bucket_eq : s.bucket (hash key) = s.bucket (hash other) := by rw [bucket, bucket, meet]
        rw [bucket_eq, get?, find?, Option.map_map]
        refine Option.map_congr fun e found => ?_
        simp [isAt_ne same (List.find?_some found)]
      next => rfl
  next missing =>
    rw [contains_iff, Option.not_isSome_iff_eq_none] at missing
    have placed := (setBucket_cons_placed h missing value).resize (s.size + 1)
    have linked : get? hash { s.setBucket (hash key) (⟨key, hash key, value⟩ :: s.bucket (hash key)) with
        size := s.size + 1 } other = if other = key then some value else s.get? hash other := by
      rw [get?_resize, get?_setBucket h]
      by_cases same : other = key
      · simp [same, HashEntry.isAt]
      · have off : HashEntry.isAt (hash other) other (⟨key, hash key, value⟩ : HashEntry α) = false := by
          simp [HashEntry.isAt, Ne.symm same]
        rw [if_neg same, List.find?_cons, off]
        split
        next meet => rw [get?, find?, bucket, bucket, meet]
        next => rfl
    split
    · rw [grow_get? placed, linked]
    · exact linked

theorem erase_placed (h : s.Placed hash) (key : String) : (s.erase hash key).1.Placed hash := by
  simp only [erase]
  split
  next =>
    have kept {i : Nat} {e : HashEntry α} (member : e ∈ (s.setBucket (hash key)
        ((s.bucket (hash key)).eraseP (HashEntry.isAt (hash key) key))).entriesAt i) : e ∈ s.entriesAt i := by
      rw [setBucket_entriesAt h] at member
      split at member
      next same => exact same ▸ List.mem_of_mem_eraseP member
      next => exact member
    refine Placed.resize ⟨by simpa using h.buckets, fun i e member => h.hashed i e (kept member),
      fun i e member => ?_, fun i => ?_⟩ _
    · rw [setBucket_index]
      exact h.indexed i e (kept member)
    · rw [setBucket_entriesAt h]
      split
      next => exact (List.eraseP_sublist.map _).nodup (h.distinct _)
      next => exact h.distinct i
  next => exact h

theorem get?_erase (h : s.Placed hash) (key other : String) :
    (s.erase hash key).1.get? hash other = if other = key then none else s.get? hash other := by
  simp only [erase]
  split
  next present =>
    rw [get?_resize, get?_setBucket h]
    obtain ⟨e, found⟩ := Option.isSome_iff_exists.1 present
    obtain ⟨at_key, before, after, split, off⟩ := List.find?_eq_some_iff_append.1 found
    have erased : (s.bucket (hash key)).eraseP (HashEntry.isAt (hash key) key) = before ++ after := by
      rw [split, List.eraseP_append_right _ fun d inside => by simpa using off d inside,
        List.eraseP_cons_of_pos at_key]
    rw [erased]
    by_cases same : other = key
    · subst same
      have alone := h.distinct (s.index (hash other))
      rw [show s.entriesAt (s.index (hash other)) = before ++ e :: after from split, List.map_append,
        List.map_cons, List.nodup_middle, List.nodup_cons] at alone
      rw [if_pos rfl, if_pos rfl, Option.map_eq_none_iff, List.find?_eq_none]
      intro d inside there
      refine alone.1 ?_
      rw [← List.map_append, (isAt_iff.1 at_key).2, ← (isAt_iff.1 there).2]
      exact List.mem_map_of_mem inside
    · rw [if_neg same]
      split
      next meet =>
        have bucket_eq : s.bucket (hash other) = before ++ e :: after := by rw [bucket, meet]; exact split
        have off : HashEntry.isAt (hash other) other e = false :=
          Bool.eq_false_iff.2 fun here => isAt_ne same here at_key
        rw [get?, find?, bucket_eq, List.find?_append, List.find?_append, List.find?_cons, off]
      next => rfl
  next missing =>
    rw [contains_iff, Option.not_isSome_iff_eq_none] at missing
    split
    next same => rw [same, missing]
    next => rfl

theorem Placed.mem_keys (h : s.Placed hash) {key : String} :
    key ∈ s.keys ↔ (s.get? hash key).isSome := by
  simp only [keys, List.mem_map, mem_entries, Option.isSome_iff_exists, h.get?_eq_some_iff]
  constructor
  · rintro ⟨e, ⟨i, member⟩, rfl⟩
    exact ⟨e.value, i, e, member, rfl, rfl⟩
  · rintro ⟨v, i, e, member, same, _⟩
    exact ⟨e, ⟨i, member⟩, same⟩

/-- What is listed of a store can be found in it. -/
theorem Placed.get?_of_mem (h : s.Placed hash) {key : String} {v : α} (member : (key, v) ∈ s.toList) :
    s.get? hash key = some v := by
  obtain ⟨e, listed, same⟩ := List.mem_map.1 member
  obtain ⟨i, here⟩ := mem_entries.1 listed
  cases same
  exact h.get?_eq_some_iff.2 ⟨i, e, here, rfl, rfl⟩

end Gradual.HashStore
