import Gradual.Heap.Record
import Mathlib.Data.Finset.Card
import Mathlib.Data.List.Nodup
import Mathlib.Data.Finset.Lattice.Fold
import Mathlib.Order.Interval.Finset.Nat

/-!
Walks through the heap: along prototype links and along forwarding slots. Both are given as relations
without a bound on their length, and the bounded walks of the heap agree with them, because a walk that
never meets a record twice is no longer than the heap.
-/
namespace Gradual.Heap

variable {h h' : Heap}

theorem get?_eq (ref : Nat) : h.get? ref = if ref = 0 then none else h.records[ref - 1]? := rfl

theorem get?_bounds {ref : Nat} {r : Record} (found : h.get? ref = some r) : 1 ≤ ref ∧ ref ≤ h.size := by
  rw [get?_eq] at found
  split at found
  · cases found
  · obtain ⟨below, _⟩ := Array.getElem?_eq_some_iff.1 found
    unfold size
    omega

theorem get?_isSome {ref : Nat} (issued : 1 ≤ ref) (inside : ref ≤ h.size) :
    ∃ r, h.get? ref = some r := by
  have below : ref - 1 < h.records.size := by
    unfold size at inside
    omega
  exact ⟨h.records[ref - 1], by rw [get?_eq, if_neg (by omega), Array.getElem?_eq_getElem below]⟩

@[simp] theorem size_update (ref : Ref) (f : Record → Record) : (h.update ref f).size = h.size := by
  unfold update
  split <;> simp [size]

@[simp] theorem size_add (r : Record) : (h.add r).size = h.size + 1 := by simp [add, size]

theorem get?_update (ref : Nat) (f : Record → Record) (x : Nat) :
    (h.update ref f).get? x = if x = ref then (h.get? x).map f else h.get? x := by
  simp only [get?_eq, update]
  by_cases zero : x = 0
  · simp [zero]
  · by_cases same : x = ref
    · subst same
      simp [zero, Array.getElem?_modify]
    · by_cases start : ref = 0
      · simp [zero, start]
      · have : ref - 1 ≠ x - 1 := by omega
        simp [zero, same, start, Array.getElem?_modify, this]

theorem get?_update_same {ref : Ref} {r : Record} (found : h.get? ref = some r) (f : Record → Record) :
    (h.update ref f).get? ref = some (f r) := by
  rw [get?_update, if_pos rfl, found]
  rfl

theorem get?_update_ne {ref x : Ref} (different : x ≠ ref) (f : Record → Record) :
    (h.update ref f).get? x = h.get? x := by
  rw [get?_update, if_neg different]

/-- Only what an update does to the record that is there matters. -/
theorem update_congr {ref : Nat} {r : Record} (found : h.get? ref = some r) {f g : Record → Record}
    (same : f r = g r) : h.update ref f = h.update ref g := by
  obtain ⟨issued, _⟩ := get?_bounds found
  rw [get?_eq, if_neg (by omega)] at found
  obtain ⟨below, rfl⟩ := Array.getElem?_eq_some_iff.1 found
  simp only [update, if_neg (Nat.pos_iff_ne_zero.1 issued)]
  congr 1
  refine Array.ext (by simp) fun i _ _ => ?_
  simp only [Array.getElem_modify]
  split
  next here => subst here; exact same
  next => rfl

/-- A record is replaced by itself. -/
theorem update_eq_self {ref : Nat} {r : Record} (found : h.get? ref = some r) {f : Record → Record}
    (same : f r = r) : h.update ref f = h := by
  rw [update_congr found (g := id) same, update]
  split
  · rfl
  · congr 1
    exact Array.ext (by simp) fun i _ _ => by simp [Array.getElem_modify]

/-- Where there is no record nothing is updated. -/
theorem update_of_none {ref : Nat} (missing : h.get? ref = none) (f : Record → Record) : h.update ref f = h := by
  unfold update
  split
  · rfl
  next issued =>
    rw [get?_eq, if_neg issued, Array.getElem?_eq_none_iff] at missing
    congr 1
    refine Array.ext (by simp) fun i below _ => ?_
    have other : ref - 1 ≠ i := by
      have inside : i < h.records.size := by simpa using below
      omega
    simp only [Array.getElem_modify, if_neg other]

theorem update_update (ref : Ref) (f g : Record → Record) :
    (h.update ref f).update ref g = h.update ref (g ∘ f) := by
  unfold update
  split
  · rfl
  · congr 1
    refine Array.ext (by simp) fun i _ _ => ?_
    simp only [Array.getElem_modify]
    split <;> rfl

theorem get?_add (r : Record) (x : Nat) :
    (h.add r).get? x = if x = h.size + 1 then some r else h.get? x := by
  have count : h.size = h.records.size := rfl
  rw [get?_eq, get?_eq, add, Array.getElem?_push]
  by_cases zero : x = 0
  · simp [zero]
  · by_cases last : x = h.size + 1
    · rw [if_neg zero, if_pos last, if_pos (by omega)]
    · rw [if_neg zero, if_neg last, if_neg (by omega), if_neg zero]

@[simp] theorem get?_empty (ref : Ref) : empty.get? ref = none := by simp [get?, empty]

theorem get?_add_old {ref : Nat} {r : Record} (found : h.get? ref = some r) (new : Record) :
    (h.add new).get? ref = some r := by
  have := (get?_bounds found).2
  rw [get?_add, if_neg (by omega), found]

/-- The record at the start of a walk and its prototypes, nearest first, up to one that has none. -/
inductive Chain (h : Heap) : Option Ref → List Ref → Prop where
  | nil : Chain h none []
  | cons {ref : Ref} {r : Record} {rest : List Ref} (found : h.get? ref = some r)
      (links : Chain h r.proto rest) : Chain h (some ref) (ref :: rest)

namespace Chain

theorem unique {start : Option Ref} {l l' : List Ref} (a : h.Chain start l) (b : h.Chain start l') :
    l = l' := by
  induction a generalizing l' with
  | nil => cases b; rfl
  | cons found _ ih =>
    cases b with
    | cons found' links =>
      cases found.symm.trans found'
      rw [ih links]

theorem mem_suffix {start : Option Ref} {l : List Ref} (chain : h.Chain start l) {ref : Ref} (member : ref ∈ l) :
    ∃ rest, h.Chain (some ref) (ref :: rest) ∧ (ref :: rest).length ≤ l.length := by
  induction chain with
  | nil => cases member
  | @cons first r tail found links ih =>
    rcases List.mem_cons.1 member with rfl | later
    · exact ⟨tail, .cons found links, Nat.le_refl _⟩
    · obtain ⟨rest, chain, shorter⟩ := ih later
      exact ⟨rest, chain, by rw [List.length_cons (a := first)]; omega⟩

theorem mem_get? {start : Option Ref} {l : List Ref} (chain : h.Chain start l) {ref : Ref} (member : ref ∈ l) :
    ∃ r, h.get? ref = some r := by
  obtain ⟨_, chain, _⟩ := chain.mem_suffix member
  cases chain with
  | cons found _ => exact ⟨_, found⟩

/-- A record met twice would start two walks of different lengths. -/
theorem nodup {start : Option Ref} {l : List Ref} (chain : h.Chain start l) : l.Nodup := by
  induction chain with
  | nil => exact .nil
  | @cons ref r rest found links ih =>
    refine List.nodup_cons.2 ⟨fun again => ?_, ih⟩
    obtain ⟨rest', chain, shorter⟩ := links.mem_suffix again
    rw [← unique (.cons found links) chain] at shorter
    exact Nat.not_succ_le_self _ shorter

theorem length_le {start : Option Ref} {l : List Ref} (chain : h.Chain start l) : l.length ≤ h.size := by
  have inside : l.toFinset ⊆ Finset.Icc 1 h.size := by
    intro ref member
    obtain ⟨r, found⟩ := chain.mem_get? (List.mem_toFinset.1 member)
    exact Finset.mem_Icc.2 (get?_bounds found)
  calc l.length = l.toFinset.card := (List.toFinset_card_of_nodup chain.nodup).symm
    _ ≤ (Finset.Icc 1 h.size).card := Finset.card_le_card inside
    _ = h.size := by simp

theorem chainWithin_eq {start : Option Ref} {l : List Ref} (chain : h.Chain start l) {fuel : Nat}
    (enough : l.length ≤ fuel) : h.chainWithin fuel start = l := by
  induction chain generalizing fuel with
  | nil => cases fuel <;> rfl
  | cons found _ ih =>
    cases fuel with
    | zero => simp at enough
    | succ fuel =>
      rw [chainWithin, found, Option.bind_some, ih (Nat.le_of_succ_le_succ enough)]

theorem chain_eq {start : Option Ref} {l : List Ref} (chain : h.Chain start l) : h.chain start = l :=
  chain.chainWithin_eq chain.length_le

/-- If one record is linked anew, every walk goes on to end. -/
theorem relink {h' : Heap} {ref : Ref} {start : Option Ref} {l l' : List Ref} (chain : h.Chain start l)
    (others : ∀ x, x ≠ ref → h'.get? x = h.get? x) (here : h'.Chain (some ref) l') : ∃ l, h'.Chain start l := by
  induction chain with
  | nil => exact ⟨[], .nil⟩
  | @cons x r rest found _ ih =>
    by_cases same : x = ref
    · subst same
      exact ⟨l', here⟩
    · obtain ⟨l, links⟩ := ih
      exact ⟨x :: l, .cons ((others x same).trans found) links⟩

/-- Chains depend on nothing but the links. -/
theorem transfer {start : Option Ref} {l : List Ref} (chain : h.Chain start l)
    (links : ∀ ref ∈ l, ∀ r, h.get? ref = some r → ∃ r', h'.get? ref = some r' ∧ r'.proto = r.proto) :
    h'.Chain start l := by
  induction chain with
  | nil => exact .nil
  | cons found _ ih =>
    obtain ⟨r', found', same⟩ := links _ List.mem_cons_self _ found
    exact .cons found' (same ▸ ih fun ref member => links ref (List.mem_cons_of_mem _ member))

end Chain

inductive Resolves (h : Heap) : Slot → Word → Prop where
  | here {w : Word} : Resolves h (.here w) w
  | forward {q : Ref} {j : Nat} {r : Record} {s : Slot} {w : Word} (found : h.get? q = some r)
      (slot : r.slots[j]? = some s) (rest : Resolves h s w) : Resolves h (.forward q j) w

/-- Slot `j` of a record that has its type and layout for good. -/
def Target (h : Heap) (q : Ref) (j : Nat) : Prop :=
  ∃ r, h.get? q = some r ∧ j < r.slots.size ∧ r.tag.isSome ∧ r.migrating = false

/-- Forwarding leads to finished records of lower rank, so it ends. -/
structure Forwarding (h : Heap) (rank : Ref → Nat) : Prop where
  target : ∀ {ref : Ref} {r : Record} {i : Nat} {q : Ref} {j : Nat}, h.get? ref = some r →
    r.slots[i]? = some (.forward q j) → h.Target q j ∧ rank q < rank ref

/-- Ranks can be chosen below the number of records: count the records of lower rank. -/
theorem Forwarding.bounded {rank : Ref → Nat} (fwd : h.Forwarding rank) :
    ∃ rank' : Ref → Nat, (∀ ref r, h.get? ref = some r → rank' ref < h.size) ∧ h.Forwarding rank' := by
  let below (ref : Ref) : Finset Nat := (Finset.Icc 1 h.size).filter (rank · < rank ref)
  refine ⟨fun ref => (below ref).card, fun ref r found => ?_, ⟨fun {ref r i q j} found slot => ?_⟩⟩
  · have self : ref ∈ Finset.Icc 1 h.size := Finset.mem_Icc.2 (get?_bounds found)
    have strict : below ref ⊂ Finset.Icc 1 h.size :=
      Finset.filter_ssubset.2 ⟨ref, self, Nat.lt_irrefl _⟩
    simpa using Finset.card_lt_card strict
  · obtain ⟨⟨rq, found', finished⟩, less⟩ := fwd.target found slot
    refine ⟨⟨rq, found', finished⟩, Finset.card_lt_card ?_⟩
    refine Finset.ssubset_iff_of_subset (fun x member => ?_) |>.2 ⟨q, ?_, ?_⟩
    · obtain ⟨inside, lower⟩ := Finset.mem_filter.1 member
      exact Finset.mem_filter.2 ⟨inside, lower.trans less⟩
    · exact Finset.mem_filter.2 ⟨Finset.mem_Icc.2 (get?_bounds found'), less⟩
    · exact fun member => Nat.lt_irrefl _ (Finset.mem_filter.1 member).2

theorem resolves_of_resolveWithin {fuel : Nat} {s : Slot} {w : Word}
    (found : h.resolveWithin fuel s = some w) : h.Resolves s w := by
  induction fuel generalizing s with
  | zero =>
    cases s with
    | here v => cases found; exact .here
    | forward q j => cases found
  | succ fuel ih =>
    cases s with
    | here v => cases found; exact .here
    | forward q j =>
      rw [resolveWithin] at found
      split at found
      next s slot =>
        obtain ⟨r, present, slot⟩ := Option.bind_eq_some_iff.1 slot
        exact .forward present slot (ih found)
      next => cases found

theorem Resolves.unique {s : Slot} {v w : Word} (a : h.Resolves s v) (b : h.Resolves s w) : v = w := by
  induction a with
  | here => cases b; rfl
  | forward found slot _ ih =>
    cases b with
    | forward found' slot' rest =>
      cases found.symm.trans found'
      cases slot.symm.trans slot'
      exact ih rest

/-- The slots of existing records resolve, within as many steps as the rank of the record says. -/
theorem Forwarding.resolveWithin_isSome {rank : Ref → Nat} (fwd : h.Forwarding rank) {ref : Ref} {r : Record}
    {i : Nat} {s : Slot} (found : h.get? ref = some r) (slot : r.slots[i]? = some s) {fuel : Nat}
    (enough : rank ref ≤ fuel) : ∃ w, h.resolveWithin fuel s = some w := by
  induction fuel generalizing ref r i s with
  | zero =>
    cases s with
    | here w => exact ⟨w, rfl⟩
    | forward q j =>
      have := (fwd.target found slot).2
      omega
  | succ fuel ih =>
    cases s with
    | here w => exact ⟨w, rfl⟩
    | forward q j =>
      obtain ⟨⟨rq, found', inside, _⟩, less⟩ := fwd.target found slot
      have slot' : rq.slots[j]? = some rq.slots[j] := Array.getElem?_eq_getElem inside
      obtain ⟨w, resolved⟩ := ih found' slot' (by omega)
      exact ⟨w, by rw [resolveWithin, found', Option.bind_some, slot']; exact resolved⟩

theorem Forwarding.resolve_eq_some {rank : Ref → Nat} (fwd : h.Forwarding rank) {ref : Ref} {r : Record}
    {i : Nat} {s : Slot} (found : h.get? ref = some r) (slot : r.slots[i]? = some s) {w : Word} :
    h.resolve s = some w ↔ h.Resolves s w := by
  refine ⟨resolves_of_resolveWithin, fun resolves => ?_⟩
  obtain ⟨rank', small, fwd'⟩ := fwd.bounded
  have enough : rank' ref ≤ h.size := (small ref r found).le
  obtain ⟨v, resolved⟩ := fwd'.resolveWithin_isSome found slot enough
  exact (resolves.unique (resolves_of_resolveWithin resolved)) ▸ resolved

theorem Forwarding.resolves {rank : Ref → Nat} (fwd : h.Forwarding rank) {ref : Ref} {r : Record}
    {i : Nat} {s : Slot} (found : h.get? ref = some r) (slot : r.slots[i]? = some s) :
    ∃ w, h.Resolves s w := by
  obtain ⟨w, resolved⟩ := fwd.resolveWithin_isSome found slot (Nat.le_refl _)
  exact ⟨w, resolves_of_resolveWithin resolved⟩

/-- Resolution depends on nothing but the slots of finished records. -/
theorem Resolves.transfer {rank : Ref → Nat} (fwd : h.Forwarding rank) {ref : Ref} {r : Record} {i : Nat}
    {s : Slot} {w : Word} (found : h.get? ref = some r) (slot : r.slots[i]? = some s) (resolves : h.Resolves s w)
    (slots : ∀ q rq, h.get? q = some rq → rq.tag.isSome → rq.migrating = false →
      ∃ rq', h'.get? q = some rq' ∧ rq'.slots = rq.slots) : h'.Resolves s w := by
  induction resolves generalizing ref r i with
  | here => exact .here
  | @forward q j rq s w present inner rest ih =>
    obtain ⟨⟨rq', found', _, tagged, done⟩, _⟩ := fwd.target found slot
    cases present.symm.trans found'
    obtain ⟨rq', found', same⟩ := slots q rq present tagged done
    exact .forward found' (same ▸ inner) (ih present inner)

end Gradual.Heap
