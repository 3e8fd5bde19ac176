import Gradual.Proofs.Coercion.Search
import Mathlib.Logic.Relation

/-!
Prototype links. In every state that a host can reach they lead to an end from every record, so a walk along them that
is given as many steps as there are records is never cut short. A link is refused exactly if it would close a circle.
-/
namespace Gradual

namespace Heap

variable {h : Heap} {a b : Ref} {l : List Ref}

def Links (h : Heap) (a b : Ref) : Prop := ∃ r, h.get? a = some r ∧ r.proto = some b

namespace Chain

/-- A chain holds all that links lead to. -/
theorem mem_iff (chain : h.Chain (some a) l) : b ∈ l ↔ Relation.ReflTransGen h.Links a b := by
  constructor
  · intro member
    generalize start : some a = origin at chain
    induction chain generalizing a with
    | nil => cases member
    | @cons x r rest found links ih =>
      cases start
      rcases List.mem_cons.1 member with rfl | later
      · exact .refl
      · cases proto : r.proto with
        | none =>
          rw [proto] at links
          cases links
          cases later
        | some q =>
          have path := ih later proto.symm
          exact .head ⟨r, found, proto⟩ path
  · intro path
    induction path using Relation.ReflTransGen.head_induction_on generalizing l with
    | refl =>
      cases chain
      exact List.mem_cons_self
    | head link _ ih =>
      obtain ⟨r, found, proto⟩ := link
      cases chain with
      | cons found' links =>
        cases found.symm.trans found'
        rw [proto] at links
        exact List.mem_cons_of_mem _ (ih links)

/-- Links never lead back. -/
theorem acyclic (chain : h.Chain (some a) l) : ¬ Relation.TransGen h.Links a a := by
  intro circle
  obtain ⟨b, ⟨r, found, proto⟩, back⟩ := Relation.TransGen.head'_iff.1 circle
  have distinct := chain.nodup
  cases chain with
  | cons found' links =>
    cases found.symm.trans found'
    rw [proto] at links
    exact (List.nodup_cons.1 distinct).1 (links.mem_iff.2 back)

end Chain

end Heap

namespace Run

variable {m : Machine} {obj proto : Word} {ref target : Ref} {r r' : Record} {l : List Ref}

theorem propRecord_bind {α : Type} (operation : String)
    (known : obj.decode? = some (.object ref) ∨ obj.decode? = some (.closure ref)) (found : m.heap.get? ref = some r)
    (next : Ref × Record → Run α) : (propRecord operation obj >>= next) m = next (ref, r) m := by
  rcases known with known | known
  all_goals
    rw [propRecord, bind_assoc, decode_bind known]
    simp only [bind_assoc, pure_bind]
    exact recordAt_bind found _

/-- A search that is not watchful is the usual one. -/
theorem coerceBy_eq {s : Search} (complete : s.Complete) (careless : s.watchful = false) (orderly : m.Orderly)
    (w : Word) (t : Child) : coerceBy s w t m = coerce w t m := by
  rcases (tracks_coerce complete orderly w t).agrees.2 with ⟨same, _⟩ | ⟨watchful, _⟩
  · exact same
  · rw [careless] at watchful
    cases watchful

/-- A link is made or refused, and nothing else happens. -/
theorem setPrototype_eq {v : Value} (known : obj.decode? = some v) (object : v = .object ref ∨ v = .closure ref)
    (found : m.heap.get? ref = some r)
    (known' : proto.decode? = some (.object target) ∨ proto.decode? = some (.closure target))
    (chain : m.heap.Chain (some target) l) :
    setPrototype obj proto m =
      if ref ∈ l then .error (.violation (.prototypeCycle v.text)) { m with dirty := true }
      else .ok () { m with heap := m.heap.update ref fun r => { r with proto := some target } } := by
  have refers : obj.decode? = some (.object ref) ∨ obj.decode? = some (.closure ref) := by
    rcases object with rfl | rfl
    · exact .inl known
    · exact .inr known
  obtain ⟨r', found'⟩ : ∃ r', m.heap.get? target = some r' := by
    cases chain with
    | cons found' _ => exact ⟨_, found'⟩
  obtain ⟨v', known'', kind⟩ : ∃ v', proto.decode? = some v' ∧ v'.kind ≠ .null := by
    rcases known' with known' | known'
    · exact ⟨_, known', by simp [Value.kind]⟩
    · exact ⟨_, known', by simp [Value.kind]⟩
  rw [setPrototype, propRecord_bind _ refers found]
  dsimp only
  rw [decode_bind known'', if_neg kind, propRecord_bind _ known' found']
  dsimp only
  rw [get_bind, chain.chain_eq]
  by_cases cycle : ref ∈ l
  · rw [if_pos cycle, if_pos cycle, decode_bind known]
    rfl
  · rw [if_neg cycle, if_neg cycle]
    rfl

end Run

namespace Machine

variable {m : Machine}

/-- Prototype links lead to an end from every record. So a read sees the whole chain of its object, a coercion that
looks for an inherited property sees all prototypes, whatever its walk would do on a circle, and a link is refused
exactly if it would close one. -/
theorem Reachable.prototypes_end (reachable : m.Reachable) :
    (∀ ref r, m.heap.get? ref = some r →
      (∃ l, m.heap.Chain (some ref) l ∧ l.length ≤ m.heap.size) ∧ ¬ Relation.TransGen m.heap.Links ref ref) ∧
    (∀ obj id ref l, obj.decode? = some (.object ref) ∨ obj.decode? = some (.closure ref) →
      m.heap.Chain (some ref) l → Run.getProp obj id m = Run.lookupAlong id l m ∧
        (m.types.names.name id ≠ "" → ∃ w, Run.getProp obj id m = .ok w m)) ∧
    (∀ walk, (∀ h start l, Heap.Chain h start l → walk h start = l) →
      ∀ w t, Run.coerceBy ⟨walk, false⟩ w t m = Run.coerce w t m) ∧
    ∀ obj v ref r proto target r', obj.decode? = some v → v = .object ref ∨ v = .closure ref →
      m.heap.get? ref = some r → proto.decode? = some (.object target) ∨ proto.decode? = some (.closure target) →
      m.heap.get? target = some r' →
      (Relation.ReflTransGen m.heap.Links target ref → Run.setPrototype obj proto m =
        .error (.violation (.prototypeCycle v.text)) { m with dirty := true }) ∧
      (¬ Relation.ReflTransGen m.heap.Links target ref → Run.setPrototype obj proto m =
        .ok () { m with heap := m.heap.update ref fun r => { r with proto := some target } }) := by
  have valid := reachable.valid
  refine ⟨?_, ?_, ?_, ?_⟩
  · intro ref r found
    obtain ⟨l, chain⟩ := valid.chains found
    exact ⟨⟨l, chain, chain.length_le⟩, chain.acyclic⟩
  · intro obj id ref l known chain
    obtain ⟨r, found⟩ : ∃ r, m.heap.get? ref = some r := chain.mem_get? (chain.mem_iff.2 .refl)
    constructor
    · rw [Run.getProp, Run.propRecord_bind _ known found]
      dsimp only
      rw [Run.get_bind, chain.chain_eq]
    · intro named
      exact ⟨_, Run.getProp_eq valid known found named⟩
  · intro walk complete w t
    have complete : Run.Search.Complete ⟨walk, false⟩ := complete
    exact Run.coerceBy_eq complete rfl valid.orderly w t
  · intro obj v ref r proto target r' known object found known' found'
    obtain ⟨l, chain⟩ := valid.chains found'
    rw [Run.setPrototype_eq known object found known' chain, ← chain.mem_iff]
    exact ⟨fun cycle => if_pos cycle, fun cycle => if_neg cycle⟩

/-- An object is read together with its prototype, which cannot be linked back to it. -/
theorem Reachable.prototypes_end_inheriting :
    Run.getProp (Word.objectRef 2) 0 inheriting = Run.lookupAlong 0 [2, 1] inheriting ∧
      Run.setPrototype (Word.objectRef 1) (Word.objectRef 2) inheriting =
        .error (.violation (.prototypeCycle "object#1")) { inheriting with dirty := true } := by
  obtain ⟨_, read, _, link⟩ := prototypes_end inheriting_reachable
  have chain : inheriting.heap.Chain (some 2) [2, 1] := .cons rfl (.cons rfl .nil)
  constructor
  · exact (read _ 0 2 _ (.inl rfl) chain).1
  · exact (link _ (.object 1) 1 _ _ 2 _ rfl (.inl rfl) rfl (.inl rfl) rfl).1 (chain.mem_iff.1 (by simp))

end Machine

end Gradual
