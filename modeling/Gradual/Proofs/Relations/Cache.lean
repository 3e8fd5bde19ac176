import Gradual.Proofs.Table.Transfer
import Gradual.Relations.Cache
import Mathlib.Tactic.IntervalCases

/-!
What a cache holds after any calls that filled it, or failed to. Under each digest and variance it holds
the rows of the last call for them. A row tells the truth about every table that compiles to the form of the table
it was computed for, under the row's variance; so the oracle made from the rows is truthful, whatever
bounds the calls had and whatever they left out.
-/
namespace Gradual

/-- A call that decides all pairs of a table, with a checker that has no oracle. It fails if the table has
no compiled form or something keeps it from the cache. -/
structure Precomputation where
  table : Table
  ordered : table.Ordered
  formed : ∀ x, table.Reaches x → (table.graph.node x).WellFormed
  depth : Int
  variance : Variance
  blocked : Option Interruption

namespace Precomputation

def checker (p : Precomputation) : Checker := ⟨p.depth, p.variance, Oracle.silent⟩

variable [Codec]

/-- The call succeeds, and its rows are found under this digest and variance. -/
structure Writes (p : Precomputation) (digest : String) (variance : Variance) : Prop where
  free : p.blocked = none
  digest : p.table.digest = .ok digest
  variance : p.variance = variance

/-- Of the tables in the calls, those with the bytes of this table have its compiled form, and those with the
SHA-256 of its bytes have its bytes. -/
structure Apart (calls : List Precomputation) (t : Table) : Prop where
  written : ∀ p ∈ calls, ∀ w w', p.table.compile = .ok w → t.compile = .ok w' →
    Codec.write w = Codec.write w' → w = w'
  hashed : ∀ p ∈ calls, ∀ w w', p.table.compile = .ok w → t.compile = .ok w' →
    Digest.sha256 (Codec.write w) = Digest.sha256 (Codec.write w') → Codec.write w = Codec.write w'

end Precomputation

namespace Text

theorem hexDigitValue?_hexDigit {n : Nat} (small : n < 16) : hexDigitValue? (hexDigit n) = some n := by
  interval_cases n <;> rfl

/-- Bytes read back from their digits. -/
theorem bytesOfHexDigits?_flatMap (bytes : List UInt8) :
    bytesOfHexDigits? (bytes.flatMap fun b => hexDigits 2 b.toNat) = some bytes := by
  induction bytes with
  | nil => rfl
  | cons b bytes ih =>
    have digits : hexDigits 2 b.toNat = [hexDigit (b.toNat / 16 % 16), hexDigit (b.toNat % 16)] := rfl
    have small := b.toNat_lt
    have whole : 16 * (b.toNat / 16 % 16) + b.toNat % 16 = b.toNat := by omega
    rw [List.flatMap_cons, digits]
    simp only [List.cons_append, List.nil_append, bytesOfHexDigits?, ih,
      hexDigitValue?_hexDigit (Nat.mod_lt _ (by decide : 0 < 16)), Option.bind_eq_bind, Option.bind_some, whole,
      UInt8.ofNat_toNat]
    rfl

theorem hexBytes_injective : Function.Injective hexBytes := by
  intro bytes bytes' same
  have read := bytesOfHexDigits?_flatMap bytes
  rw [String.ofList_injective same, bytesOfHexDigits?_flatMap bytes'] at read
  exact (Option.some.inj read).symm

end Text

namespace Table

variable [Codec] {t : Table}

theorem Compilable.digest (compilable : t.Compilable) : ∃ digest, t.digest = .ok digest := by
  obtain ⟨order, _, compiled⟩ := compilable.compile
  rw [Table.digest, Table.encode, compiled]
  exact ⟨_, rfl⟩

/-- A digest is the SHA-256 of the bytes of a compiled form. -/
theorem digest_eq_ok_iff {digest : String} : t.digest = .ok digest ↔
    ∃ w, t.compile = .ok w ∧ Text.hexBytes (Digest.sha256 (Codec.write w)) = digest := by
  rw [Table.digest, Table.encode]
  cases t.compile <;> simp [Except.map]

end Table

namespace Precomputation

variable [Codec] {p : Precomputation} {calls : List Precomputation} {t : Table} {digest : String} {v : Variance}

theorem Writes.compilable (writes : p.Writes digest v) : p.table.Compilable := by
  obtain ⟨w, compiled, _⟩ := Table.digest_eq_ok_iff.1 writes.digest
  exact p.ordered.compilable p.formed compiled

/-- A table that shares its digest with one in the calls shares its compiled form. -/
theorem Apart.compile_eq (apart : Apart calls t) (member : p ∈ calls) (own : p.table.digest = .ok digest)
    (known : t.digest = .ok digest) : p.table.compile = t.compile := by
  obtain ⟨w, compiled, hashed⟩ := Table.digest_eq_ok_iff.1 own
  obtain ⟨w', compiled', hashed'⟩ := Table.digest_eq_ok_iff.1 known
  have bytes := apart.hashed p member w w' compiled compiled' (Text.hexBytes_injective (hashed.trans hashed'.symm))
  rw [compiled, compiled', apart.written p member w w' compiled compiled' bytes]

end Precomputation

theorem Table.decideRow?_eq_some {t : Table} {c : Checker} {digest left right : String} {rel : Relation}
    {r : RelationRow} : t.decideRow? c digest left right rel = some r ↔
      ∃ result, (c.decide t.graph rel (t.tag? left) (t.tag? right)).result = .ok result ∧
        r = ⟨digest, c.variance, left, right, rel, result⟩ := by
  unfold Table.decideRow?
  split
  · next result decided => simp [decided, eq_comm]
  · next decided => simp [decided]

/-- A row is there for every pair of names and every relation that the checker decides. -/
theorem Table.mem_decideRows {t : Table} {c : Checker} {digest : String} {r : RelationRow} :
    r ∈ t.decideRows c digest ↔ r.digest = digest ∧ r.variance = c.variance ∧ r.left ∈ t.names ∧ r.right ∈ t.names ∧
      (c.decide t.graph r.rel (t.tag? r.left) (t.tag? r.right)).result = .ok r.result := by
  simp only [Table.decideRows, List.mem_flatMap, List.mem_filterMap, Table.decideRow?_eq_some]
  constructor
  · rintro ⟨left, here, right, there, rel, _, result, decided, rfl⟩
    exact ⟨rfl, rfl, here, there, decided⟩
  · rintro ⟨rfl, variance, here, there, decided⟩
    refine ⟨r.left, here, r.right, there, r.rel, ?_, r.result, decided, by rw [← variance]⟩
    cases r.rel <;> simp

namespace RelationCache

variable {cache : RelationCache} {digest other : String} {v w : Variance} {rows : List RelationRow}
  {p : Precomputation} {calls : List Precomputation}

theorem find_replace_self (own : ∀ r ∈ rows, r.digest = digest ∧ r.variance = v) :
    (cache.replace digest v rows).find digest v = rows := by
  have kept : rows.filter (·.belongs digest v) = rows :=
    List.filter_eq_self.2 fun r member => by simp [RelationRow.belongs, own r member]
  simp [find, replace, List.filter_append, List.filter_filter, kept]

theorem find_replace_of_ne (own : ∀ r ∈ rows, r.digest = digest ∧ r.variance = v)
    (ne : ¬ (digest = other ∧ v = w)) : (cache.replace digest v rows).find other w = cache.find other w := by
  have dropped : rows.filter (·.belongs other w) = [] :=
    List.filter_eq_nil_iff.2 fun r member => by
      obtain ⟨rfl, rfl⟩ := own r member
      simpa [RelationRow.belongs] using ne
  have untouched (r : RelationRow) : (r.belongs other w && !r.belongs digest v) = r.belongs other w := by
    by_cases here : r.belongs other w
    · have away : r.belongs digest v = false := by
        simp only [RelationRow.belongs, Bool.and_eq_true, decide_eq_true_eq] at here
        simp only [RelationRow.belongs, here.1, here.2, Bool.and_eq_false_iff, decide_eq_false_iff_not]
        tauto
      simp [here, away]
    · simp [here]
  simp [find, replace, List.filter_append, List.filter_filter, dropped, untouched]

variable [Codec]

def after (cache : RelationCache) (p : Precomputation) : RelationCache :=
  match cache.precompute p.blocked p.table p.checker with
  | .ok (cache, _) => cache
  | .error _ => cache

def filled (calls : List Precomputation) : RelationCache := calls.foldl after empty

theorem filled_snoc (calls : List Precomputation) (p : Precomputation) :
    filled (calls ++ [p]) = (filled calls).after p := by
  simp [filled]

def rowsOf (p : Precomputation) (digest : String) : List RelationRow := p.table.decideRows p.checker digest

theorem rowsOf_own (writes : p.Writes digest v) : ∀ r ∈ rowsOf p digest, r.digest = digest ∧ r.variance = v := by
  intro r member
  obtain ⟨here, variance, _⟩ := Table.mem_decideRows.1 member
  exact ⟨here, variance.trans writes.variance⟩

/-- A call replaces what was there under its digest and variance, and tells how many rows it wrote. -/
theorem precompute_eq (writes : p.Writes digest v) (cache : RelationCache) :
    cache.precompute p.blocked p.table p.checker =
      .ok (cache.replace digest v (rowsOf p digest), (rowsOf p digest).length) := by
  obtain ⟨free, known, rfl⟩ := writes
  simp only [precompute, CacheAction.begin, known, free]
  rfl

theorem after_eq (writes : p.Writes digest v) (cache : RelationCache) :
    cache.after p = cache.replace digest v (rowsOf p digest) := by
  rw [after, precompute_eq writes]

theorem find_after_self (writes : p.Writes digest v) : (cache.after p).find digest v = rowsOf p digest := by
  rw [after_eq writes, find_replace_self (rowsOf_own writes)]

theorem find_after_of_not (other : ¬ p.Writes digest v) : (cache.after p).find digest v = cache.find digest v := by
  cases known : p.table.digest with
  | error e =>
    rw [after, precompute, CacheAction.begin, known]
    rfl
  | ok own =>
    cases free : p.blocked with
    | some why =>
      rw [after, precompute, CacheAction.begin, known, free]
      rfl
    | none =>
      have writes : p.Writes own p.variance := ⟨free, known, rfl⟩
      rw [after_eq writes, find_replace_of_ne (rowsOf_own writes)]
      rintro ⟨rfl, same⟩
      exact other ⟨free, known, same⟩

/-- Calls for other digests, or the other variance, leave rows alone. -/
theorem find_filled_append (others : ∀ q ∈ calls, ¬ q.Writes digest v) (before : List Precomputation) :
    (filled (before ++ calls)).find digest v = (filled before).find digest v := by
  induction calls using List.reverseRecOn with
  | nil => rw [List.append_nil]
  | append_singleton calls q ih =>
    rw [← List.append_assoc, filled_snoc, find_after_of_not (others q (by simp))]
    exact ih fun p member => others p (by simp [member])

/-- Under a digest and a variance are the rows of the last call for them. -/
theorem find_filled (before : List Precomputation) (writes : p.Writes digest v)
    (others : ∀ q ∈ calls, ¬ q.Writes digest v) :
    (filled (before ++ p :: calls)).find digest v = rowsOf p digest := by
  have found := find_filled_append others (before ++ [p])
  rwa [filled_snoc, find_after_self writes, List.append_assoc] at found

/-- Every row is one of a call for its digest and variance. -/
theorem mem_find_filled {r : RelationRow} (member : r ∈ (filled calls).find digest v) :
    ∃ p ∈ calls, p.Writes digest v ∧ r ∈ rowsOf p digest := by
  induction calls using List.reverseRecOn with
  | nil => simp [filled, find, empty] at member
  | append_singleton calls q ih =>
    rw [filled_snoc] at member
    by_cases writes : q.Writes digest v
    · rw [find_after_self writes] at member
      exact ⟨q, by simp, writes, member⟩
    · rw [find_after_of_not writes] at member
      obtain ⟨p, inside, rest⟩ := ih member
      exact ⟨p, by simp [inside], rest⟩

theorem begin_eq {t : Table} (known : t.digest = .ok digest) (action : CacheAction) :
    action.begin none t = .ok digest := by
  rw [CacheAction.begin, known]
  rfl

theorem count_eq {t : Table} (known : t.digest = .ok digest) :
    cache.count none t v = .ok (cache.find digest v).length := by
  rw [count, begin_eq known]
  rfl

/-- The rows of the last call for a digest and a variance are what is counted under them. -/
theorem count_filled {t : Table} (known : t.digest = .ok digest) (before : List Precomputation)
    (writes : p.Writes digest v) (others : ∀ q ∈ calls, ¬ q.Writes digest v) :
    ∃ n, (filled before).precompute p.blocked p.table p.checker = .ok (filled (before ++ [p]), n) ∧
      (filled (before ++ p :: calls)).count none t v = .ok n := by
  refine ⟨(rowsOf p digest).length, ?_, ?_⟩
  · rw [precompute_eq writes, filled_snoc, after_eq writes]
  · rw [count_eq known, find_filled before writes others]

theorem count_filled_of_none {t : Table} (known : t.digest = .ok digest) (others : ∀ q ∈ calls, ¬ q.Writes digest v) :
    (filled calls).count none t v = .ok 0 := by
  have found : (filled calls).find digest v = [] := find_filled_append others []
  rw [count_eq known, found]
  rfl

end RelationCache

namespace Table

variable {t : Table} {name : String} {a : TypeId}

/-- A name that one table defines is not one of a primitive type in any. -/
theorem Ordered.tag?_eq_lookup {u : Table} (ordered : u.Ordered) (defined : name ∈ u.names) (t : Table) :
    t.tag? name = t.tags.lookup name := by
  obtain ⟨entry, member, rfl⟩ := List.mem_map.1 defined
  simp only [tag?, (ordered.named entry member).2]

theorem exists_lookup (defined : name ∈ t.names) : ∃ a, t.tags.lookup name = some a := by
  obtain ⟨entry, member, rfl⟩ := List.mem_map.1 defined
  rw [← Option.isSome_iff_exists, Option.isSome_iff_ne_none, ne_eq, lookup_eq_none_iff]
  exact fun absent => absent entry member rfl

theorem Compilable.wellFormed_of_lookup (compilable : t.Compilable) (h : t.tags.lookup name = some a) :
    t.graph.WellFormed a := by
  obtain ⟨entry, member, path⟩ := reaches_of_lookup h
  exact fun x rest => compilable.formed x ⟨entry, member, path.trans rest⟩

/-- So are the types of primitive names. -/
theorem Compilable.wellFormed_of_tag? (compilable : t.Compilable) (h : t.tag? name = some a) :
    t.graph.WellFormed a := by
  unfold tag? at h
  split at h
  · next p _ =>
    cases h
    have node := compilable.rooted p
    exact .of_closed [p.typeId] (by simp [Graph.children, node, Node.children, Node.WellFormed]) (by simp)
  · exact compilable.wellFormed_of_lookup h

theorem remembered?_eq_some {r : RelationRow} {known : RememberedAnswer} : t.remembered? r = some known ↔
    known.rel = r.rel ∧ known.result = r.result ∧ t.tag? r.left = some known.left ∧
      t.tag? r.right = some known.right := by
  unfold remembered?
  cases known
  cases t.tag? r.left <;> cases t.tag? r.right <;> simp [eq_comm]
  tauto

end Table

namespace RememberedAnswers

variable {answers : List RememberedAnswer} {answer : RememberedAnswer} {rel : Relation} {a b : TypeId} {r : Bool}

theorem about_iff : answer.about rel a b = true ↔ answer.rel = rel ∧ answer.left = a ∧ answer.right = b := by
  simp [RememberedAnswer.about, and_assoc]

theorem lookup_insert (known : RememberedAnswers) (answer : RememberedAnswer) (rel : Relation) (a b : TypeId) :
    (known.insert answer).lookup rel a b =
      if answer.about rel a b then some answer.result else known.lookup rel a b := by
  by_cases here : answer.about rel a b
  · obtain ⟨rfl, rfl, rfl⟩ := about_iff.1 here
    have gone : known.answers.find? (fun _ => false) = none := List.find?_eq_none.2 (by simp)
    simp [lookup, insert, List.find?_append, List.find?_filter, here, gone]
  · -- the answers that made room are to another question
    have kept (other : RememberedAnswer) :
        (!other.about answer.rel answer.left answer.right && other.about rel a b) = other.about rel a b := by
      by_cases about : other.about rel a b
      · obtain ⟨rfl, rfl, rfl⟩ := about_iff.1 about
        simp only [about_iff, not_and] at here
        simp [RememberedAnswer.about]
        tauto
      · simp [about]
    simp [lookup, insert, List.find?_append, List.find?_filter, kept, here]

theorem ofList_snoc (answers : List RememberedAnswer) (answer : RememberedAnswer) :
    ofList (answers ++ [answer]) = (ofList answers).insert answer := by
  simp [ofList]

theorem mem_of_lookup_ofList (h : (ofList answers).lookup rel a b = some r) : ⟨rel, a, b, r⟩ ∈ answers := by
  induction answers using List.reverseRecOn with
  | nil => cases h
  | append_singleton answers answer ih =>
    rw [ofList_snoc, lookup_insert] at h
    split_ifs at h with here
    · obtain ⟨rfl, rfl, rfl⟩ := about_iff.1 here
      cases h
      simp
    · simp [ih h]

/-- A question that was answered keeps an answer. -/
theorem lookup_ofList_isSome (member : answer ∈ answers) :
    ((ofList answers).lookup answer.rel answer.left answer.right).isSome := by
  induction answers using List.reverseRecOn with
  | nil => cases member
  | append_singleton answers last ih =>
    rw [ofList_snoc, lookup_insert]
    split_ifs with here
    · rfl
    · rcases List.mem_append.1 member with earlier | new
      · exact ih earlier
      · rw [List.mem_singleton.1 new] at here
        exact absurd (about_iff.2 ⟨rfl, rfl, rfl⟩) here

end RememberedAnswers

namespace RelationCache

variable [Codec] {t : Table} {v : Variance} {calls : List Precomputation}

theorem remembered_eq {digest : String} (known : t.digest = .ok digest) (cache : RelationCache) :
    cache.remembered none t v =
      let answers := RememberedAnswers.ofList ((cache.find digest v).filterMap t.remembered?)
      if answers.size = 0 then .error (.notPrecomputed digest v) else .ok answers := by
  rw [remembered, begin_eq known]
  rfl

/-- A row of a call tells the truth about every table with the compiled form of the call's table. -/
theorem rowsOf_truthful {p : Precomputation} {digest : String} (writes : p.Writes digest v)
    (compilable : t.Compilable) (same : p.table.compile = t.compile) {r : RelationRow}
    (member : r ∈ rowsOf p digest) {a b : TypeId} (left : t.tag? r.left = some a) (right : t.tag? r.right = some b) :
    r.result = true ↔ t.graph.Related v r.rel a b := by
  obtain rfl := writes.variance
  obtain ⟨_, _, defined, defined', decided⟩ := Table.mem_decideRows.1 member
  obtain ⟨a', left'⟩ := Table.exists_lookup defined
  obtain ⟨b', right'⟩ := Table.exists_lookup defined'
  simp only [p.ordered.tag?_eq_lookup defined, p.ordered.tag?_eq_lookup defined'] at decided left right
  rw [left', right'] at decided
  have truth := Checker.decide_iff (Oracle.silent_truthful p.table.graph p.variance)
    (writes.compilable.wellFormed_of_lookup left') (writes.compilable.wellFormed_of_lookup right') decided
  exact truth.trans (Table.related_of_compile_eq writes.compilable compilable same left' right' left right)

/-- Whatever calls filled a cache, it answers with the truth. -/
theorem remembered_truthful (compilable : t.Compilable) (apart : Precomputation.Apart calls t)
    {known : RememberedAnswers} (found : (filled calls).remembered none t v = .ok known) {rel : Relation}
    {a b : TypeId} {answer : Bool} (told : known.oracle rel a b = some answer) :
    answer = true ↔ t.graph.Related v rel a b := by
  obtain ⟨digest, hashed⟩ := compilable.digest
  rw [remembered_eq hashed] at found
  have loaded : RememberedAnswers.ofList (((filled calls).find digest v).filterMap t.remembered?) = known := by
    simp only at found
    split at found
    · cases found
    · exact Except.ok.inj found
  subst loaded
  obtain ⟨r, member, row⟩ := List.mem_filterMap.1 (RememberedAnswers.mem_of_lookup_ofList told)
  obtain ⟨rfl, rfl, left, right⟩ := Table.remembered?_eq_some.1 row
  obtain ⟨p, inside, writes, written⟩ := mem_find_filled member
  exact rowsOf_truthful writes compilable (apart.compile_eq inside writes.digest hashed) written left right

/-- Every pair of names that the last call for its table decided is answered, and as it was decided. -/
theorem remembered_of_decided {p : Precomputation} (before : List Precomputation) {digest : String}
    (writes : p.Writes digest v) (others : ∀ q ∈ calls, ¬ q.Writes digest v)
    (apart : Precomputation.Apart (before ++ p :: calls) p.table) {rel : Relation} {left right : String}
    {a b : TypeId} {r : Bool} (defined : left ∈ p.table.names) (defined' : right ∈ p.table.names)
    (first : p.table.tag? left = some a) (second : p.table.tag? right = some b)
    (decided : (p.checker.decide p.table.graph rel (some a) (some b)).result = .ok r) :
    ∃ known, (filled (before ++ p :: calls)).remembered none p.table v = .ok known ∧ known.oracle rel a b = some r := by
  have row : (⟨digest, p.variance, left, right, rel, r⟩ : RelationRow) ∈ rowsOf p digest :=
    Table.mem_decideRows.2 ⟨rfl, rfl, defined, defined', by rwa [first, second]⟩
  let answers := RememberedAnswers.ofList ((rowsOf p digest).filterMap p.table.remembered?)
  have member : (⟨rel, a, b, r⟩ : RememberedAnswer) ∈ (rowsOf p digest).filterMap p.table.remembered? :=
    List.mem_filterMap.2 ⟨_, row, Table.remembered?_eq_some.2 ⟨rfl, rfl, first, second⟩⟩
  have kept : (answers.lookup rel a b).isSome := RememberedAnswers.lookup_ofList_isSome member
  obtain ⟨r', told⟩ := Option.isSome_iff_exists.1 kept
  have loaded : (filled (before ++ p :: calls)).remembered none p.table v = .ok answers := by
    rw [remembered_eq writes.digest, find_filled before writes others]
    refine if_neg fun empty => ?_
    have none : answers.answers = [] := List.length_eq_zero_iff.1 empty
    simp [RememberedAnswers.lookup, none] at told
  have truth := remembered_truthful writes.compilable apart loaded told
  have truth' := Checker.decide_iff (Oracle.silent_truthful p.table.graph p.variance)
    (writes.compilable.wellFormed_of_tag? first) (writes.compilable.wellFormed_of_tag? second) decided
  have same : r' = r := Bool.eq_iff_iff.2 (truth.trans (writes.variance ▸ truth'.symm))
  exact ⟨answers, loaded, same ▸ told⟩

theorem oracle_truthful (compilable : t.Compilable) (apart : Precomputation.Apart calls t) {known : RememberedAnswers}
    (found : (filled calls).remembered none t v = .ok known) : known.oracle.Truthful t.graph v where
  equal _ _ _ told := remembered_truthful compilable apart found told
  subtype _ _ _ told := remembered_truthful compilable apart found told

end RelationCache

end Gradual
