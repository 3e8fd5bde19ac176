import Gradual.Proofs.Table.Canonical
import Gradual.Proofs.Table.Document
import Gradual.Proofs.Table.Validity

/-!
Documents resolve to what they say. Whether a document makes a table depends on its wording alone, and the table has
for every name the node that its definition describes, part by part. While definitions are read their parts are added
to the store and the nodes of names that come later are still blank; a description speaks of such a node only as the
node of that name, so it stays true when the node is filled.
-/
namespace Gradual

open Act TypeStore DocumentBuilder

theorem Prim.ofName?_eq_some_iff {name : String} {p : Prim} : Prim.ofName? name = some p ↔ name = p.name := by
  constructor
  · intro found
    simpa [eq_comm] using List.find?_some found
  · rintro rfl
    cases p <;> rfl

def Member.name : Member → String
  | .mk name _ _ => name

mutual

/-- A reference names a primitive type or one of `names`, or is a valid definition. -/
def Reference.Valid (known : String → Prop) : Reference → Prop
  | .named name => (∃ p : Prim, name = p.name) ∨ known name
  | .inline d => d.Valid known

def Definition.Valid (known : String → Prop) : Definition → Prop
  | .mk kind props recv args ret proto elem =>
    (∃ p : Prim, kind = p.name) ∨
    (kind = "object" ∧ (props.map Member.name).Nodup ∧ membersValid known props) ∨
    (kind = "function" ∧ partValid known ret ∧ argumentsValid known args ∧ recv.isNone ∧ proto.isNone) ∨
    (kind = "method" ∧ partValid known ret ∧ argumentsValid known args ∧ partValid known recv ∧ proto.isNone) ∨
    (kind = "constructor" ∧ partValid known ret ∧ argumentsValid known args ∧ partValid known recv ∧
      partValid known proto) ∨
    ((kind = "array" ∨ kind = "map") ∧ partValid known elem)

def partValid (known : String → Prop) : Option Reference → Prop
  | none => False
  | some r => r.Valid known

def argumentsValid (known : String → Prop) : List Reference → Prop
  | [] => True
  | r :: rs => r.Valid known ∧ argumentsValid known rs

def membersValid (known : String → Prop) : List Member → Prop
  | [] => True
  | .mk name type _ :: ms => name ≠ "" ∧ type.Valid known ∧ membersValid known ms

end

section Decidable

instance (name : String) : Decidable (∃ p : Prim, name = p.name) :=
  decidable_of_iff (¬ Prim.ofName? name = none) (by simp [Prim.ofName?_eq_none_iff])

variable (known : String → Prop) [DecidablePred known]

mutual

def Reference.decideValid : (r : Reference) → Decidable (r.Valid known)
  | .named _ => inferInstanceAs (Decidable (_ ∨ _))
  | .inline d => Definition.decideValid d

def Definition.decideValid : (d : Definition) → Decidable (d.Valid known)
  | .mk _ props recv args ret proto elem =>
    have := decideMembers props
    have := decideArguments args
    have := decidePart recv
    have := decidePart ret
    have := decidePart proto
    have := decidePart elem
    inferInstanceAs (Decidable (_ ∨ _))

def decidePart : (r : Option Reference) → Decidable (partValid known r)
  | none => inferInstanceAs (Decidable False)
  | some r => Reference.decideValid r

def decideArguments : (rs : List Reference) → Decidable (argumentsValid known rs)
  | [] => inferInstanceAs (Decidable True)
  | r :: rs =>
    have := Reference.decideValid r
    have := decideArguments rs
    inferInstanceAs (Decidable (_ ∧ _))

def decideMembers : (ms : List Member) → Decidable (membersValid known ms)
  | [] => inferInstanceAs (Decidable True)
  | .mk _ type _ :: ms =>
    have := Reference.decideValid type
    have := decideMembers ms
    inferInstanceAs (Decidable (_ ∧ _ ∧ _))

end

instance : (d : Option Definition) → Decidable (∃ definition, d = some definition ∧ definition.Valid known)
  | none => .isFalse (by simp)
  | some d =>
    have := d.decideValid known
    decidable_of_iff (d.Valid known) (by simp)

end Decidable

structure Document.Valid (d : Document) : Prop where
  nonempty : d.tags ≠ []
  once : (d.tags.map Prod.fst).Nodup
  named : ∀ entry ∈ d.tags, entry.1 ≠ "" ∧ ∀ p : Prim, entry.1 ≠ p.name
  defined : ∀ entry ∈ d.tags, ∃ definition, entry.2 = some definition ∧ definition.Valid (· ∈ d.tags.map Prod.fst)

instance (d : Document) : Decidable d.Valid :=
  decidable_of_iff (d.tags ≠ [] ∧ (d.tags.map Prod.fst).Nodup ∧
      (∀ entry ∈ d.tags, entry.1 ≠ "" ∧ Prim.ofName? entry.1 = none) ∧
      ∀ entry ∈ d.tags, ∃ definition, entry.2 = some definition ∧ definition.Valid (· ∈ d.tags.map Prod.fst))
    (by
      simp only [Prim.ofName?_eq_none_iff]
      constructor
      · rintro ⟨nonempty, once, named, defined⟩
        exact ⟨nonempty, once, named, defined⟩
      · intro valid
        exact ⟨valid.nonempty, valid.once, valid.named, valid.defined⟩)

/-- A node that no name stands for; a primitive one is shared. -/
structure Table.Anonymous (t : Table) (x : TypeId) : Prop where
  shared : ∀ p, t.graph.node x = .prim p → x = p.typeId
  unnamed : ∀ entry ∈ t.tags, entry.2 ≠ x

mutual

/-- The node that a reference stands for: the one of the name, or one as the definition says. -/
def Reference.Denotes (t : Table) : Reference → TypeId → Prop
  | .named name, x => t.tag? name = some x
  | .inline d, x => d.Describes t (t.graph.node x) ∧ t.Anonymous x

def Definition.Describes (t : Table) : Definition → Node → Prop
  | .mk kind props recv args ret proto elem, n =>
    (∃ p : Prim, kind = p.name ∧ n = .prim p) ∨
    (kind = "object" ∧ ∃ ps, n = .object ps ∧ membersDescribe t props ps) ∨
    (kind = "function" ∧ ∃ given result, n = .closure ⟨.function, given, result, none⟩ ∧
      argumentsDenote t args given ∧ partDenotes t ret result) ∨
    (kind = "method" ∧ ∃ self given result, n = .closure ⟨.method, self :: given, result, none⟩ ∧
      partDenotes t recv self ∧ argumentsDenote t args given ∧ partDenotes t ret result) ∨
    (kind = "constructor" ∧ ∃ self given result prototype,
      n = .closure ⟨.constructor, self :: given, result, prototype⟩ ∧ partDenotes t recv self ∧
      argumentsDenote t args given ∧ partDenotes t ret result ∧ partDenotes t proto prototype) ∨
    (kind = "array" ∧ ∃ e, n = .array e ∧ partDenotes t elem e) ∨
    (kind = "map" ∧ ∃ e, n = .map e ∧ partDenotes t elem e)

def partDenotes (t : Table) : Option Reference → Child → Prop
  | some r, some x => r.Denotes t x
  | _, _ => False

def argumentsDenote (t : Table) : List Reference → List Child → Prop
  | [], [] => True
  | r :: rs, some x :: cs => r.Denotes t x ∧ argumentsDenote t rs cs
  | _, _ => False

def membersDescribe (t : Table) : List Member → List Property → Prop
  | [], [] => True
  | .mk name type readOnly :: ms, p :: ps =>
    (p.id < t.props.size ∧ t.props.name p.id = name ∧ p.readOnly = readOnly ∧
      ∃ x, p.type = some x ∧ type.Denotes t x) ∧ membersDescribe t ms ps
  | _, _ => False

end

/-- Another table with the same names, where nodes and property names may have been added and nodes of names filled. -/
structure Table.Continues (t t' : Table) : Prop where
  tags : t'.tags = t.tags
  issued : t.props.size ≤ t'.props.size
  names : ∀ id < t.props.size, t'.props.name id = t.props.name id
  nodes : ∀ x < t.graph.size, (∀ entry ∈ t.tags, entry.2 ≠ x) → t'.graph.node x = t.graph.node x

theorem Definition.Describes.lt_size {t : Table} {d : Definition} {x : TypeId}
    (described : d.Describes t (t.graph.node x)) : x < t.graph.size := by
  by_contra outside
  have blank : t.graph.node x = .odd 0 := by
    rw [Graph.size] at outside
    simp [Graph.node, Array.getD, outside]
  rw [blank] at described
  obtain ⟨kind, props, recv, args, ret, proto, elem⟩ := d
  simp [Definition.Describes] at described

mutual

theorem Reference.Denotes.mono {t t' : Table} (later : t.Continues t') :
    (r : Reference) → {x : TypeId} → r.Denotes t x → r.Denotes t' x
  | .named name, x, denotes => by
    simp only [Reference.Denotes, Table.tag?, later.tags] at denotes ⊢
    exact denotes
  | .inline d, x, denotes => by
    simp only [Reference.Denotes] at denotes ⊢
    obtain ⟨described, shared, unnamed⟩ := denotes
    have same : t'.graph.node x = t.graph.node x := later.nodes x described.lt_size unnamed
    rw [same]
    exact ⟨Definition.Describes.mono later d described, by rwa [same], by rwa [later.tags]⟩

theorem Definition.Describes.mono {t t' : Table} (later : t.Continues t') :
    (d : Definition) → {n : Node} → d.Describes t n → d.Describes t' n
  | .mk kind props recv args ret proto elem, n, described => by
    simp only [Definition.Describes] at described ⊢
    rcases described with prim | ⟨k, ps, shape, members⟩ | ⟨k, given, result, shape, as, r⟩ |
      ⟨k, self, given, result, shape, o, as, r⟩ | ⟨k, self, given, result, prototype, shape, o, as, r, q⟩ |
      ⟨k, e, shape, part⟩ | ⟨k, e, shape, part⟩
    · exact .inl prim
    · exact .inr (.inl ⟨k, ps, shape, membersDescribe_mono later props members⟩)
    · exact .inr (.inr (.inl ⟨k, given, result, shape, argumentsDenote_mono later args as,
        partDenotes_mono later ret r⟩))
    · exact .inr (.inr (.inr (.inl ⟨k, self, given, result, shape, partDenotes_mono later recv o,
        argumentsDenote_mono later args as, partDenotes_mono later ret r⟩)))
    · exact .inr (.inr (.inr (.inr (.inl ⟨k, self, given, result, prototype, shape, partDenotes_mono later recv o,
        argumentsDenote_mono later args as, partDenotes_mono later ret r, partDenotes_mono later proto q⟩))))
    · exact .inr (.inr (.inr (.inr (.inr (.inl ⟨k, e, shape, partDenotes_mono later elem part⟩)))))
    · exact .inr (.inr (.inr (.inr (.inr (.inr ⟨k, e, shape, partDenotes_mono later elem part⟩)))))

theorem partDenotes_mono {t t' : Table} (later : t.Continues t') :
    (r : Option Reference) → {c : Child} → partDenotes t r c → partDenotes t' r c
  | none, _, denotes => by simp [partDenotes] at denotes
  | some r, none, denotes => by simp [partDenotes] at denotes
  | some r, some x, denotes => by
    simp only [partDenotes] at denotes ⊢
    exact Reference.Denotes.mono later r denotes

theorem argumentsDenote_mono {t t' : Table} (later : t.Continues t') :
    (rs : List Reference) → {cs : List Child} → argumentsDenote t rs cs → argumentsDenote t' rs cs
  | [], [], _ => by simp [argumentsDenote]
  | [], _ :: _, denotes => by simp [argumentsDenote] at denotes
  | _ :: _, [], denotes => by simp [argumentsDenote] at denotes
  | _ :: _, none :: _, denotes => by simp [argumentsDenote] at denotes
  | r :: rs, some x :: cs, denotes => by
    simp only [argumentsDenote] at denotes ⊢
    exact ⟨Reference.Denotes.mono later r denotes.1, argumentsDenote_mono later rs denotes.2⟩

theorem membersDescribe_mono {t t' : Table} (later : t.Continues t') :
    (ms : List Member) → {ps : List Property} → membersDescribe t ms ps → membersDescribe t' ms ps
  | [], [], _ => by simp [membersDescribe]
  | [], _ :: _, described => by simp [membersDescribe] at described
  | _ :: _, [], described => by simp [membersDescribe] at described
  | .mk name type readOnly :: ms, p :: ps, described => by
    simp only [membersDescribe] at described ⊢
    obtain ⟨⟨issued, named, flag, x, here, denotes⟩, rest⟩ := described
    refine ⟨⟨issued.trans_le later.issued, (later.names p.id issued).trans named, flag, x, here, ?_⟩, ?_⟩
    · exact Reference.Denotes.mono later type denotes
    · exact membersDescribe_mono later ms rest

end

def TypeStore.draft (s : TypeStore) (scope : TypeScope) : Table := ⟨s.names, s.graph, scope⟩

theorem TypeStore.Grows.continues {s s' : TypeStore} (grown : s.Grows s') (scope : TypeScope) :
    (s.draft scope).Continues (s'.draft scope) :=
  ⟨rfl, grown.issued, grown.names, fun x inside _ => grown.nodes x inside⟩

structure TypeScope.Ready (scope : TypeScope) (s : TypeStore) : Prop where
  rooted : s.graph.Rooted
  known : scope.Known s
  apart : ∀ entry ∈ scope, ∀ p : Prim, p.typeId ≠ entry.2

theorem TypeScope.Ready.grow {scope : TypeScope} {s s' : TypeStore} (ready : scope.Ready s) (grown : s.Grows s') :
    scope.Ready s' where
  rooted p := by rw [grown.nodes _ (prim_lt_size ready.rooted p), ready.rooted p]
  known := ready.known.grow grown
  apart := ready.apart

/-- The action succeeds exactly if its wording is valid, only adds to the store, and then ends as `ok` says. -/
def Resolves (act : DocumentBuilder α) (s : TypeStore) (valid : Prop) (ok : α → TypeStore → Prop) : Prop :=
  Ends act s (fun a s' => valid ∧ s.Grows s' ∧ ok a s') fun _ _ => ¬ valid

section Resolves

variable {α β : Type} {s : TypeStore} {valid other : Prop} {ok : α → TypeStore → Prop} {scope : TypeScope}

theorem Resolves.pure {a : α} (fine : valid) (here : ok a s) : Resolves (pure a) s valid ok :=
  ⟨fine, .refl s, here⟩

theorem Resolves.throw (e : TableError) (bad : ¬ valid) : Resolves (throw e : DocumentBuilder α) s valid ok := bad

theorem Resolves.congr {act : DocumentBuilder α} (resolves : Resolves act s valid ok) (same : valid ↔ other) :
    Resolves act s other ok := by
  rwa [← propext same]

theorem Resolves.bind {act : DocumentBuilder β} {next : β → DocumentBuilder α} {mid : β → TypeStore → Prop}
    (first : Resolves act s valid mid)
    (rest : ∀ b s', s.Grows s' → mid b s' → Resolves (next b) s' other ok) :
    Resolves (act >>= next) s (valid ∧ other) ok := by
  refine (ends_bind ..).2 (first.mono ?_ ?_)
  · rintro b s' ⟨fine, grown, here⟩
    refine (rest b s' grown here).mono ?_ ?_
    · rintro a s'' ⟨also, grown', there⟩
      exact ⟨⟨fine, also⟩, grown.trans grown', there⟩
    · intro _ _ bad both
      exact bad both.2
  · intro _ _ bad both
    exact bad both.1

/-- A step that cannot fail asks nothing of the wording. -/
theorem Resolves.last {act : DocumentBuilder β} {next : β → DocumentBuilder α} {mid : β → TypeStore → Prop}
    (first : Resolves act s valid mid) (rest : ∀ b s', s.Grows s' → mid b s' → Resolves (next b) s' True ok) :
    Resolves (act >>= next) s valid ok :=
  (first.bind rest).congr (and_iff_left trivial)

/-- A node that is added is described where it was, and no name stands for it. -/
theorem resolves_add {n : Node} {d : Definition} (ready : scope.Ready s) (fine : valid) (compound : n.isPrim = false)
    (described : d.Describes (s.draft scope) n) :
    Resolves (add n) s valid fun x s' =>
      d.Describes (s'.draft scope) (s'.graph.node x) ∧ (s'.draft scope).Anonymous x := by
  have grown := s.grows_add n
  have here : (s.graph.add n).1.node s.graph.size = n := Graph.node_add_self ..
  refine (ends_add n).2 ⟨fine, grown, ?_, ?_, ?_⟩
  · rw [here]
    exact described.mono (grown.continues scope) d
  · intro p shape
    have prim : n = .prim p := here.symm.trans shape
    rw [prim] at compound
    cases compound
  · intro entry member same
    exact Nat.ne_of_lt (ready.known entry member) same

theorem resolves_intern (name : String) (s : TypeStore) :
    Resolves (intern name) s True fun id s' => id < s'.names.size ∧ s'.names.name id = name :=
  ⟨trivial, s.grows_intern name, NameTable.intern_id_lt .., NameTable.name_intern ..⟩

end Resolves

theorem TypeScope.lookup_eq_none_iff {scope : TypeScope} {name : String} :
    scope.lookup name = none ↔ name ∉ scope.map Prod.fst := by
  rw [Table.lookup_eq_none_iff, List.mem_map]
  constructor
  · rintro free ⟨entry, member, same⟩
    exact free entry member same
  · intro missing entry member same
    exact missing ⟨entry, member, same⟩

mutual

theorem Reference.resolves {scope : TypeScope} (place : String) :
    (r : Reference) → {s : TypeStore} → scope.Ready s →
      Resolves (r.build scope place) s (r.Valid (· ∈ scope.map Prod.fst)) fun x s' => r.Denotes (s'.draft scope) x
  | .inline d, s, ready => by
    simp only [Reference.build, Reference.Valid, Reference.Denotes]
    exact Definition.resolves place d ready
  | .named name, s, ready => by
    simp only [Reference.build, Reference.Valid, Reference.Denotes, Table.tag?]
    cases prim : Prim.ofName? name with
    | some p => exact .pure (.inl ⟨p, Prim.ofName?_eq_some_iff.1 prim⟩) rfl
    | none =>
      have other := Prim.ofName?_eq_none_iff.1 prim
      cases found : scope.lookup name with
      | some x =>
        refine .pure (.inr ?_) found
        by_contra missing
        rw [TypeScope.lookup_eq_none_iff.2 missing] at found
        cases found
      | none =>
        refine .throw _ ?_
        rintro (⟨p, same⟩ | member)
        · exact other p same
        · exact TypeScope.lookup_eq_none_iff.1 found member

theorem Definition.resolves {scope : TypeScope} (place : String) :
    (d : Definition) → {s : TypeStore} → scope.Ready s →
      Resolves (d.build scope place) s (d.Valid (· ∈ scope.map Prod.fst)) fun x s' =>
        d.Describes (s'.draft scope) (s'.graph.node x) ∧ (s'.draft scope).Anonymous x
  | .mk kind props recv args ret proto elem, s, ready => by
    unfold Definition.build
    split
    · next p prim =>
      have name : kind = p.name := Prim.ofName?_eq_some_iff.1 prim
      have node : s.graph.node p.typeId = .prim p := ready.rooted p
      refine .pure (.inl ⟨p, name⟩) ⟨?_, ?_, ?_⟩
      · exact .inl ⟨p, name, node⟩
      · intro q shape
        obtain rfl : p = q := Node.prim.inj (node.symm.trans shape)
        rfl
      · intro entry member same
        exact ready.apart entry member p same.symm
    next other =>
    have compound : ¬ ∃ p : Prim, kind = p.name := by
      rintro ⟨p, same⟩
      exact Prim.ofName?_eq_none_iff.1 other p same
    split
    · -- object
      refine ((membersResolve place [] props ready).last fun ps s₁ g₁ described => ?_).congr
        (by simp [Definition.Valid, compound])
      refine resolves_add (ready.grow g₁) trivial rfl ?_
      simp [Definition.Describes, described]
    · -- array
      refine ((partResolves _ elem ready).last fun x s₁ g₁ denotes => ?_).congr (by simp [Definition.Valid, compound])
      refine resolves_add (ready.grow g₁) trivial rfl ?_
      simp [Definition.Describes, denotes]
    · -- map
      refine ((partResolves _ elem ready).last fun x s₁ g₁ denotes => ?_).congr (by simp [Definition.Valid, compound])
      refine resolves_add (ready.grow g₁) trivial rfl ?_
      simp [Definition.Describes, denotes]
    · -- function
      refine Resolves.congr ((partResolves _ ret ready).bind fun x s₁ g₁ result => ?_)
        (by simp only [Definition.Valid, compound, String.reduceEq, false_and, true_and, false_or, or_false]; exact .rfl)
      refine (argumentsResolve place 0 args (ready.grow g₁)).bind fun cs s₂ g₂ given => ?_
      split
      · next parts =>
        refine .throw _ ?_
        rintro ⟨alone, bare⟩
        simp_all
      · next parts =>
        refine resolves_add ((ready.grow g₁).grow g₂) (by simpa using parts) rfl ?_
        simp [Definition.Describes, given, partDenotes_mono (g₂.continues scope) ret result]
    · -- method
      refine Resolves.congr ((partResolves _ ret ready).bind fun x s₁ g₁ result => ?_)
        (by simp only [Definition.Valid, compound, String.reduceEq, false_and, true_and, false_or, or_false]; exact .rfl)
      refine (argumentsResolve place 0 args (ready.grow g₁)).bind fun cs s₂ g₂ given => ?_
      refine (partResolves _ recv ((ready.grow g₁).grow g₂)).bind fun o s₃ g₃ receiver => ?_
      split
      · next part =>
        refine .throw _ ?_
        simpa [Option.isSome_iff_ne_none] using part
      · next part =>
        refine resolves_add (((ready.grow g₁).grow g₂).grow g₃) (by simpa using part) rfl ?_
        have given := argumentsDenote_mono (g₃.continues scope) args given
        have result := partDenotes_mono ((g₂.trans g₃).continues scope) ret result
        simp [Definition.Describes, receiver, given, result]
    · -- constructor
      refine Resolves.congr ((partResolves _ ret ready).bind fun x s₁ g₁ result => ?_)
        (by simp only [Definition.Valid, compound, String.reduceEq, false_and, true_and, false_or, or_false]; exact .rfl)
      refine (argumentsResolve place 0 args (ready.grow g₁)).bind fun cs s₂ g₂ given => ?_
      refine (partResolves _ recv ((ready.grow g₁).grow g₂)).bind fun o s₃ g₃ receiver => ?_
      refine (partResolves _ proto (((ready.grow g₁).grow g₂).grow g₃)).last fun q s₄ g₄ prototype => ?_
      refine resolves_add ((((ready.grow g₁).grow g₂).grow g₃).grow g₄) trivial rfl ?_
      have receiver := partDenotes_mono (g₄.continues scope) recv receiver
      have given := argumentsDenote_mono ((g₃.trans g₄).continues scope) args given
      have result := partDenotes_mono ((g₂.trans (g₃.trans g₄)).continues scope) ret result
      simp [Definition.Describes, receiver, given, result, prototype]
    · -- no kind
      refine .throw _ ?_
      simp only [Definition.Valid, compound, String.reduceEq, false_and, or_self, not_false_eq_true]
    · -- a kind of its own
      refine .throw _ ?_
      simp_all [Definition.Valid]

theorem partResolves {scope : TypeScope} (place : String) :
    (r : Option Reference) → {s : TypeStore} → scope.Ready s →
      Resolves (buildPart scope place r) s (partValid (· ∈ scope.map Prod.fst) r) fun x s' =>
        partDenotes (s'.draft scope) r (some x)
  | none, s, _ => by
    rw [buildPart]
    exact .throw _ (by simp [partValid])
  | some r, s, ready => by
    simp only [buildPart, partValid, partDenotes]
    exact Reference.resolves place r ready

theorem argumentsResolve {scope : TypeScope} (place : String) (index : Nat) :
    (rs : List Reference) → {s : TypeStore} → scope.Ready s →
      Resolves (buildArguments scope place index rs) s (argumentsValid (· ∈ scope.map Prod.fst) rs) fun cs s' =>
        argumentsDenote (s'.draft scope) rs cs
  | [], s, _ => by
    simp only [buildArguments, argumentsValid]
    exact .pure trivial (by simp [argumentsDenote])
  | r :: rs, s, ready => by
    simp only [buildArguments, argumentsValid]
    refine (Reference.resolves _ r ready).bind fun x s₁ g₁ denotes => ?_
    refine (argumentsResolve place (index + 1) rs (ready.grow g₁)).last fun cs s₂ g₂ given => ?_
    refine .pure trivial ?_
    simp only [argumentsDenote]
    exact ⟨denotes.mono (g₂.continues scope) r, given⟩

theorem membersResolve {scope : TypeScope} (place : String) (seen : List String) :
    (ms : List Member) → {s : TypeStore} → scope.Ready s →
      Resolves (buildMembers scope place seen ms) s
        ((ms.map Member.name).Nodup ∧ (∀ name ∈ ms.map Member.name, name ∉ seen) ∧
          membersValid (· ∈ scope.map Prod.fst) ms) fun ps s' => membersDescribe (s'.draft scope) ms ps
  | [], s, _ => by
    simp only [buildMembers]
    exact .pure (by simp [membersValid]) (by simp [membersDescribe])
  | .mk name type readOnly :: ms, s, ready => by
    simp only [buildMembers, membersValid, List.map_cons, Member.name, List.nodup_cons, List.forall_mem_cons]
    split
    · next empty =>
      refine .throw _ ?_
      rintro ⟨_, _, named, _⟩
      exact named empty
    next named =>
    split
    · next old =>
      refine .throw _ ?_
      rintro ⟨_, ⟨fresh, _⟩, _⟩
      exact fresh old
    next fresh =>
    have wording (known : String → Prop) :
        (type.Valid known ∧ True ∧ (ms.map Member.name).Nodup ∧ (∀ other ∈ ms.map Member.name, other ∉ name :: seen) ∧
          membersValid known ms) ↔
        (name ∉ ms.map Member.name ∧ (ms.map Member.name).Nodup) ∧
          (name ∉ seen ∧ ∀ other ∈ ms.map Member.name, other ∉ seen) ∧ name ≠ "" ∧ type.Valid known ∧
          membersValid known ms := by
      have apart : (∀ other ∈ ms.map Member.name, other ∉ name :: seen) ↔
          name ∉ ms.map Member.name ∧ ∀ other ∈ ms.map Member.name, other ∉ seen := by
        grind
      rw [apart]
      tauto
    refine Resolves.congr ((Reference.resolves _ type ready).bind fun x s₁ g₁ denotes => ?_) (wording _)
    refine (resolves_intern name s₁).bind fun id s₂ g₂ ⟨issued, here⟩ => ?_
    refine (membersResolve place (name :: seen) ms ((ready.grow g₁).grow g₂)).last fun ps s₃ g₃ described => ?_
    refine .pure trivial ?_
    simp only [membersDescribe]
    refine ⟨⟨issued.trans_le g₃.issued, (g₃.names id issued).trans here, trivial, x, rfl, ?_⟩, described⟩
    exact denotes.mono ((g₂.trans g₃).continues scope) type

end

theorem Table.Continues.trans {t t' t'' : Table} (first : t.Continues t') (later : t'.Continues t'')
    (size : t.graph.size ≤ t'.graph.size) : t.Continues t'' where
  tags := later.tags.trans first.tags
  issued := first.issued.trans later.issued
  names id old := (later.names id (old.trans_le first.issued)).trans (first.names id old)
  nodes x old unnamed := (later.nodes x (old.trans_le size) (first.tags ▸ unnamed)).trans (first.nodes x old unnamed)

namespace Document

variable {s : TypeStore} {scope : TypeScope} {entries : List (String × Option Definition)}

theorem continues_define {self : TypeId} {name : String} (member : (name, self) ∈ scope) (n : Node) :
    (s.draft scope).Continues (TypeStore.draft { s with graph := s.graph.define self n } scope) :=
  ⟨rfl, le_rfl, fun _ _ => rfl, fun _ _ unnamed => Graph.node_define_of_ne (unnamed _ member).symm n⟩

theorem ready_define {self : TypeId} {name : String} (ready : scope.Ready s) (member : (name, self) ∈ scope)
    (n : Node) : scope.Ready { s with graph := s.graph.define self n } where
  rooted p := by rw [Graph.node_define_of_ne (ready.apart _ member p), ready.rooted p]
  known entry inside := by simpa using ready.known entry inside
  apart := ready.apart

/-- What filling does: every definition is there and valid, each is described by the node of its name in the end, and
the nodes of other names are as before. -/
structure Filled (s : TypeStore) (scope : TypeScope) (entries : List (String × Option Definition)) (s' : TypeStore) :
    Prop where
  size : s.graph.size ≤ s'.graph.size
  continues : (s.draft scope).Continues (s'.draft scope)
  ready : scope.Ready s'
  kept : ∀ entry ∈ scope, entry.1 ∉ entries.map Prod.fst → s'.graph.node entry.2 = s.graph.node entry.2
  described : ∀ entry ∈ entries, ∃ d x, entry.2 = some d ∧ (entry.1, x) ∈ scope ∧
    d.Describes (s'.draft scope) (s'.graph.node x)

def Defined (known : String → Prop) (entries : List (String × Option Definition)) : Prop :=
  ∀ entry ∈ entries, ∃ d, entry.2 = some d ∧ d.Valid known

theorem ends_fill_filled (ready : scope.Ready s) (once : (scope.map Prod.fst).Nodup)
    (distinct : (scope.map Prod.snd).Nodup) (each : (entries.map Prod.fst).Nodup)
    (known : ∀ entry ∈ entries, entry.1 ∈ scope.map Prod.fst) :
    Ends (fill scope entries) s
      (fun _ s' => Defined (· ∈ scope.map Prod.fst) entries ∧ Filled s scope entries s')
      fun _ _ => ¬ Defined (· ∈ scope.map Prod.fst) entries := by
  induction entries generalizing s with
  | nil => exact ⟨by simp [Defined], le_rfl, (TypeStore.Grows.refl s).continues scope, ready, fun _ _ _ => rfl, by simp⟩
  | cons entry entries ih =>
    obtain ⟨name, definition⟩ := entry
    rw [List.map_cons, List.nodup_cons] at each
    rw [List.forall_mem_cons] at known
    obtain ⟨⟨_, self⟩, member, rfl⟩ := List.mem_map.1 known.1
    unfold fill
    cases definition with
    | none =>
      intro defined
      obtain ⟨d, absent, _⟩ := defined _ List.mem_cons_self
      cases absent
    | some d =>
      refine (ends_bind ..).2 ((Definition.resolves _ d ready).mono ?_ ?_)
      · rintro x s₁ ⟨fine, grown, described, -⟩
        have ready₁ := ready.grow grown
        have defined := continues_define (s := s₁) member (s₁.graph.node x)
        simp only [lookup_of_nodup once member]
        refine (ih (ready_define ready₁ member (s₁.graph.node x)) each.2 known.2).mono ?_ ?_
        · rintro _ s' ⟨rest, filled⟩
          have size : s₁.graph.size ≤ s'.graph.size := by simpa using filled.size
          have later : (s₁.draft scope).Continues (s'.draft scope) := defined.trans filled.continues (by simp [draft])
          refine ⟨List.forall_mem_cons.2 ⟨⟨d, rfl, fine⟩, rest⟩, grown.size.trans size,
            (grown.continues scope).trans later grown.size, filled.ready, ?_, ?_⟩
          · intro entry inside other
            rw [List.map_cons, List.mem_cons, not_or] at other
            have apart : entry.2 ≠ self := by
              intro same
              exact other.1 (congrArg Prod.fst (List.inj_on_of_nodup_map distinct inside member same))
            rw [filled.kept entry inside other.2, Graph.node_define_of_ne apart, grown.nodes _ (ready.known entry inside)]
          · rw [List.forall_mem_cons]
            refine ⟨⟨d, self, rfl, member, ?_⟩, filled.described⟩
            rw [filled.kept _ member each.1, Graph.node_define_self (ready₁.known _ member)]
            exact described.mono later d
        · intro _ _ bad defined
          exact bad (List.forall_mem_cons.1 defined).2
      · intro _ _ bad defined
        obtain ⟨d', same, fine⟩ := defined _ List.mem_cons_self
        cases same
        exact bad fine

/-- Reading succeeds exactly if no name is taken by a primitive type and the definitions are there and valid. -/
theorem ends_read_filled (rooted : s.graph.Rooted) (once : (entries.map Prod.fst).Nodup) :
    Ends (do
        let scope ← reserve entries
        fill scope entries
        return scope) s
      (fun scope s' => ((∀ entry ∈ entries, Prim.ofName? entry.1 = none) ∧ Defined (· ∈ entries.map Prod.fst) entries) ∧
        ∃ s₁, Reserved s entries scope s₁ ∧ Filled s₁ scope entries s')
      fun _ _ => ¬ ((∀ entry ∈ entries, Prim.ofName? entry.1 = none) ∧ Defined (· ∈ entries.map Prod.fst) entries) := by
  refine (ends_bind ..).2 ((ends_reserve entries s).mono ?_ fun _ _ bad both => bad both.1)
  rintro scope s₁ ⟨free, reserved⟩
  have ready : scope.Ready s₁ := by
    refine ⟨fun p => ?_, fun entry member => (reserved.within entry member).2, reserved.apart rooted⟩
    rw [reserved.grown.nodes _ (prim_lt_size rooted p), rooted p]
  have known : ∀ entry ∈ entries, entry.1 ∈ scope.map Prod.fst := by
    intro entry member
    rw [reserved.names]
    exact List.mem_map_of_mem member
  have filled := ends_fill_filled ready (reserved.names ▸ once) reserved.distinct once known
  rw [reserved.names] at filled
  refine (ends_bind ..).2 (filled.mono ?_ fun _ _ bad both => bad both.2)
  rintro _ s' ⟨defined, filled⟩
  exact ⟨⟨free, defined⟩, s₁, reserved, filled⟩

theorem sorted_perm (d : Document) : d.sorted.Perm d.tags := List.mergeSort_perm ..

theorem pairwise_sorted {d : Document} (once : (d.tags.map Prod.fst).Nodup) : d.sorted.Pairwise (·.1 < ·.1) := by
  have ordered : d.sorted.Pairwise fun a b => (!(b.1 < a.1 : Bool)) = true := by
    refine List.pairwise_mergeSort ?_ ?_ d.tags
    · intro a b c first second
      simp only [Bool.not_eq_true', decide_eq_false_iff_not, String.not_lt] at first second ⊢
      exact String.le_trans first second
    · intro a b
      simp only [Bool.or_eq_true, Bool.not_eq_true', decide_eq_false_iff_not, String.not_lt]
      exact String.le_total ..
  have distinct : (d.sorted.map Prod.fst).Nodup := (d.sorted_perm.map Prod.fst).nodup_iff.2 once
  refine (ordered.and (List.pairwise_map.1 distinct)).imp ?_
  rintro a b ⟨notAfter, other⟩
  simp only [Bool.not_eq_true', decide_eq_false_iff_not, String.not_lt] at notAfter
  exact String.not_le.1 fun le => other (String.le_antisymm notAfter le)

theorem valid_iff (d : Document) : d.Valid ↔ d.tags ≠ [] ∧ (d.tags.map Prod.fst).Nodup ∧
    (∀ entry ∈ d.sorted, entry.1 ≠ "") ∧ (∀ entry ∈ d.sorted, Prim.ofName? entry.1 = none) ∧
      Defined (· ∈ d.sorted.map Prod.fst) d.sorted := by
  have names : (· ∈ d.sorted.map Prod.fst) = (· ∈ d.tags.map Prod.fst) := by
    funext name
    exact propext (d.sorted_perm.map Prod.fst).mem_iff
  rw [names]
  simp only [Defined, d.sorted_perm.mem_iff, Prim.ofName?_eq_none_iff]
  constructor
  · rintro ⟨nonempty, once, named, defined⟩
    exact ⟨nonempty, once, fun entry member => (named entry member).1, fun entry member => (named entry member).2,
      defined⟩
  · rintro ⟨nonempty, once, named, free, defined⟩
    exact ⟨nonempty, once, fun entry member => ⟨named entry member, free entry member⟩, defined⟩

structure Resolved (d : Document) (t : Table) : Prop where
  valid : d.Valid
  built : ∃ s, Reserved (TypeStore.ofNames d.props) d.sorted t.tags s ∧ Filled s t.tags d.sorted ⟨t.graph, t.props⟩

theorem sorted_of_names {d : Document} (once : (d.tags.map Prod.fst).Nodup)
    (names : scope.map Prod.fst = d.sorted.map Prod.fst) : scope.Pairwise (·.1 < ·.1) := by
  have sorted : (d.sorted.map Prod.fst).Pairwise (· < ·) := List.pairwise_map.2 (pairwise_sorted once)
  rw [← names] at sorted
  exact List.pairwise_map.1 sorted

theorem table_resolved {d : Document} {t : Table} (h : d.table = .ok t) : d.Resolved t := by
  obtain ⟨nonempty, scope, s, run, defined⟩ := table_eq_ok_iff.1 h
  obtain ⟨names, -⟩ := (ends_read d.sorted (drafted_ofNames d.props)).of_ok run
  obtain ⟨props, graph, -, once, -⟩ := Table.defineAll_eq_ok defined
  rw [names] at once
  have distinct : (d.tags.map Prod.fst).Nodup := (d.sorted_perm.map Prod.fst).nodup_iff.1 once
  obtain ⟨⟨free, valid⟩, s₁, reserved, filled⟩ :=
    (ends_read_filled (drafted_ofNames d.props).rooted once).of_ok run
  have ordered : t.Ordered := (table_holds h).1
  obtain rfl : t.tags = scope := by
    refine Table.tags_ext ordered.sorted (sorted_of_names distinct names) fun entry => ?_
    simpa using (Table.defineAll_perm defined).mem_iff
  obtain rfl : s = ⟨t.graph, t.props⟩ := by rw [props, graph]
  refine ⟨d.valid_iff.2 ⟨nonempty, distinct, ?_, free, valid⟩, s₁, reserved, filled⟩
  intro entry member
  obtain ⟨named, inside, same⟩ := List.mem_map.1 (names ▸ List.mem_map_of_mem member)
  exact same ▸ (ordered.named named inside).1

/-- Exactly the valid documents have a table. -/
theorem table_isOk_iff (d : Document) : (∃ t, d.table = .ok t) ↔ d.Valid := by
  constructor
  · rintro ⟨t, h⟩
    exact (table_resolved h).valid
  · intro valid
    obtain ⟨nonempty, distinct, named, free, defined⟩ := d.valid_iff.1 valid
    have once : (d.sorted.map Prod.fst).Nodup := (d.sorted_perm.map Prod.fst).nodup_iff.2 distinct
    have read := ends_read_filled (drafted_ofNames d.props).rooted once
    cases run : (do let scope ← reserve d.sorted; fill scope d.sorted; return scope : DocumentBuilder TypeScope).run
        (TypeStore.ofNames d.props) with
    | error e s => exact absurd ⟨free, defined⟩ (read.of_error run)
    | ok scope s =>
      obtain ⟨-, s₁, reserved, -⟩ := read.of_ok run
      refine ⟨_, table_eq_ok_iff.2 ⟨nonempty, scope, s, run, Table.defineAll_of_sorted ?_ ?_⟩⟩
      · exact sorted_of_names distinct reserved.names
      · intro entry member
        obtain ⟨original, inside, same⟩ := List.mem_map.1 (reserved.names ▸ List.mem_map_of_mem member)
        rw [← same]
        exact ⟨named original inside, free original inside⟩

/-- The names of a document come first, in the order in which they first occur. -/
theorem Resolved.pinned {d : Document} {t : Table} (resolved : d.Resolved t) : d.props.eraseDups <+: t.props.toList := by
  obtain ⟨s, reserved, filled⟩ := resolved.built
  have issued : (NameTable.ofList d.props).size ≤ s.names.size := reserved.grown.issued
  have names : ∀ id < (NameTable.ofList d.props).size, s.names.name id = (NameTable.ofList d.props).name id :=
    reserved.grown.names
  rw [← NameTable.toList_ofList]
  refine NameTable.toList_prefix (issued.trans filled.continues.issued) fun id old => ?_
  exact (filled.continues.names id (old.trans_le issued)).trans (names id old)

/-- Documents resolve to what they say. Exactly the valid documents have a table. It has the names of the document, each
with a node of its own that is as the definition of the name describes it; the primitive types are shared, the names that
the document pins have the first ids in the order in which they first occur, every node is well formed with all that it
refers to, and the table can be compiled. The ids of properties are positions in the table of names, so that they take
32 bits as long as it has no more than `2 ^ 32` of them. -/
theorem table_exact [Codec] (d : Document) :
    ((∃ t, d.table = .ok t) ↔ d.Valid) ∧
    ∀ t, d.table = .ok t → t.names.Perm (d.tags.map Prod.fst) ∧
      (∀ name definition, (name, some definition) ∈ d.tags →
        ∃ x, t.tag? name = some x ∧ definition.Describes t (t.graph.node x)) ∧
      (t.tags.map Prod.snd).Nodup ∧ (∀ p : Prim, t.graph.node p.typeId = .prim p ∧ ∀ entry ∈ t.tags, entry.2 ≠ p.typeId) ∧
      d.props.eraseDups <+: t.props.toList ∧ t.props.Distinct ∧
      (∀ entry ∈ t.tags, entry.2 < t.graph.size) ∧ (∀ x < t.graph.size, t.graph.WellFormed x) ∧
      (∀ x < t.graph.size, ∀ p ∈ (t.graph.node x).props, p.id < t.props.size) ∧
      ∃ bytes, t.encode = .ok bytes := by
  refine ⟨d.table_isOk_iff, fun t h => ?_⟩
  have resolved := table_resolved h
  obtain ⟨s, reserved, filled⟩ := resolved.built
  obtain ⟨ordered, holds, roots⟩ := table_holds h
  obtain ⟨order, -, compiled⟩ := (table_sound h).compile
  refine ⟨?_, ?_, reserved.distinct, ?_, resolved.pinned, ordered.distinct, roots,
    fun x inside => Table.wellFormed_of_holds holds inside, fun x inside => (holds x inside).named, _,
    by rw [Table.encode, compiled]; rfl⟩
  · rw [Table.names, reserved.names]
    exact d.sorted_perm.map Prod.fst
  · intro name definition member
    obtain ⟨_, x, given, inside, described⟩ := filled.described (name, some definition) (d.sorted_perm.mem_iff.2 member)
    cases given
    have once : (t.tags.map Prod.fst).Nodup := by
      rw [reserved.names]
      exact (d.sorted_perm.map Prod.fst).nodup_iff.2 resolved.valid.once
    refine ⟨x, ?_, described⟩
    rw [Table.tag?, (ordered.named _ inside).2]
    exact lookup_of_nodup once inside
  · intro p
    refine ⟨ordered.rooted p, fun entry member => ?_⟩
    exact (reserved.apart (drafted_ofNames d.props).rooted entry member p).symm

/-- Two names that refer to each other, one of them also inside of the types of its properties. -/
def family : Document where
  props := ["kin", "size", "kin"]
  tags := [
    ("Tree", some (.mk "object" [
      .mk "size" (.named "int") true,
      .mk "kin" (.inline (.mk "array" [] none [] none none (some (.named "Forest")))) false,
      .mk "grow" (.inline (.mk "method" [] (some (.named "Tree")) [.named "int", .named "Forest"] (some (.named "Tree"))
        none none)) true] none [] none none none)),
    ("Forest", some (.mk "map" [] none [] none none (some (.named "Tree"))))]

theorem table_exact_family : family.Valid ∧ ∃ t tree forest, family.table = .ok t ∧ t.tag? "Tree" = some tree ∧
    t.tag? "Forest" = some forest ∧ tree ≠ forest ∧ t.graph.node forest = .map (some tree) ∧
    ["kin", "size"] <+: t.props.toList ∧ t.graph.WellFormed tree ∧ ∃ bytes, t.encode = .ok bytes := by
  have valid : family.Valid := by decide
  obtain ⟨accepts, tables⟩ := table_exact family
  obtain ⟨t, h⟩ := accepts.2 valid
  obtain ⟨-, described, -, -, pinned, -, roots, formed, -, encoded⟩ := tables t h
  obtain ⟨tree, named, tall⟩ := described "Tree" _ List.mem_cons_self
  obtain ⟨forest, named', wide⟩ := described "Forest" _ (List.mem_cons_of_mem _ List.mem_cons_self)
  have shape : t.graph.node forest = .map (some tree) := by
    have other : ¬ ∃ p : Prim, "map" = p.name ∧ t.graph.node forest = .prim p := by
      rintro ⟨p, same, -⟩
      cases p <;> simp [Prim.name] at same
    simp only [Definition.Describes, other, String.reduceEq, false_and, true_and, false_or] at wide
    obtain ⟨e, shape, part⟩ := wide
    cases e with
    | none => simp [partDenotes] at part
    | some x =>
      simp only [partDenotes, Reference.Denotes, named, Option.some.injEq] at part
      rw [shape, part]
  refine ⟨valid, t, tree, forest, h, named, named', ?_, shape, pinned, formed tree tall.lt_size, encoded⟩
  · rintro rfl
    rw [shape] at tall
    simp [Definition.Describes] at tall

end Document

end Gradual
