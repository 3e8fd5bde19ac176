import Gradual.Property.Names
import Mathlib.Data.List.Induction
import Mathlib.Data.List.Nodup
import Mathlib.Data.List.Perm.Subperm

/-!
Tables of property names give every name one id. Interning keeps the names apart and the ids that were
issued before; a list of distinct names makes the table of just these names.
-/
namespace Gradual.NameTable

variable {t : NameTable} {name : String}

def Distinct (t : NameTable) : Prop := t.toList.Nodup

theorem find?_eq (t : NameTable) (name : String) : t.find? name = t.toList.idxOf? name := by
  obtain ⟨⟨names⟩⟩ := t
  exact List.idxOf?_toArray name names

theorem find?_eq_none : t.find? name = none ↔ name ∉ t.toList := by
  rw [find?_eq, List.idxOf?_eq_none_iff]

theorem name_of_find? {id : PropId} (h : t.find? name = some id) : id < t.size ∧ t.name id = name := by
  obtain ⟨inside, here, _⟩ := List.idxOf?_eq_some_iff.1 (t.find?_eq name ▸ h)
  have bound : id < t.names.size := inside
  refine ⟨bound, ?_⟩
  rw [NameTable.name, Array.getD, dif_pos bound]
  exact here

theorem lt_size_of_name {id : PropId} (named : t.name id ≠ "") : id < t.size := by
  by_contra outside
  have missing : t.names[id]? = none := Array.getElem?_eq_none (Nat.le_of_not_lt outside)
  exact named (by simp [NameTable.name, Array.getD_eq_getD_getElem?, missing])

/-- Interning adds the name at the end, or nothing. -/
theorem intern_cases (t : NameTable) (name : String) :
    (∃ id, t.intern name = (t, id) ∧ id < t.size ∧ t.name id = name) ∨
      (name ∉ t.toList ∧ t.intern name = (⟨t.names.push name⟩, t.size)) := by
  unfold intern
  split
  · next id found => exact .inl ⟨id, rfl, name_of_find? found⟩
  · next missing => exact .inr ⟨find?_eq_none.1 missing, rfl⟩

theorem intern_distinct (distinct : t.Distinct) (name : String) : (t.intern name).1.Distinct := by
  obtain ⟨id, same, _⟩ | ⟨fresh, grown⟩ := t.intern_cases name
  · rwa [same]
  · rw [grown, Distinct, toList, Array.toList_push, List.nodup_append]
    exact ⟨distinct, by simp, by rintro a here b there rfl; simp_all [toList]⟩

theorem size_le_intern (t : NameTable) (name : String) : t.size ≤ (t.intern name).1.size := by
  obtain ⟨id, same, _⟩ | ⟨_, grown⟩ := t.intern_cases name
  · simp [same]
  · simp [grown, size]

theorem intern_id_lt (t : NameTable) (name : String) : (t.intern name).2 < (t.intern name).1.size := by
  obtain ⟨id, same, inside, _⟩ | ⟨_, grown⟩ := t.intern_cases name
  · rwa [same]
  · simp [grown, size]

/-- Interning issues the next id at most. -/
theorem intern_id_le (t : NameTable) (name : String) : (t.intern name).2 ≤ t.size := by
  obtain ⟨id, same, inside, _⟩ | ⟨_, grown⟩ := t.intern_cases name
  · simp [same, Nat.le_of_lt inside]
  · simp [grown]

theorem intern_size_le (t : NameTable) (name : String) : (t.intern name).1.size ≤ t.size + 1 := by
  obtain ⟨id, same, _⟩ | ⟨_, grown⟩ := t.intern_cases name
  · simp [same]
  · simp [grown, size]

theorem name_intern_of_lt {id : PropId} (issued : id < t.size) (name : String) :
    (t.intern name).1.name id = t.name id := by
  obtain ⟨_, same, _⟩ | ⟨_, grown⟩ := t.intern_cases name
  · rw [same]
  · have bound : id < t.names.size := issued
    simp only [grown, NameTable.name]
    simp [Array.getD, Array.getElem_push, bound, Nat.lt_succ_of_lt bound]

theorem name_intern (t : NameTable) (name : String) : (t.intern name).1.name (t.intern name).2 = name := by
  obtain ⟨id, same, _, here⟩ | ⟨_, grown⟩ := t.intern_cases name
  · rw [same, here]
  · simp [grown, NameTable.name, size, Array.getD]

theorem toList_push (t : NameTable) (name : String) : toList ⟨t.names.push name⟩ = t.toList ++ [name] :=
  Array.toList_push

/-- Ids stay. -/
theorem find?_intern_of_some {other : String} {id : PropId} (found : t.find? other = some id) (name : String) :
    (t.intern name).1.find? other = some id := by
  obtain ⟨_, same, _⟩ | ⟨_, grown⟩ := t.intern_cases name
  · rwa [same]
  · rw [grown, find?_eq, toList_push, List.idxOf?_eq_some_iff]
    rw [find?_eq, List.idxOf?_eq_some_iff] at found
    obtain ⟨inside, here, first⟩ := found
    refine ⟨by simp; omega, by rwa [List.getElem_append_left inside], fun j before => ?_⟩
    rw [List.getElem_append_left (Nat.lt_trans before inside)]
    exact first j before

theorem find?_intern (t : NameTable) (name : String) : (t.intern name).1.find? name = some (t.intern name).2 := by
  unfold intern
  split
  · next found => exact found
  · next missing =>
    rw [find?_eq, toList_push, List.idxOf?_eq_some_iff]
    refine ⟨by simp [toList], by simp [toList], fun j before same => ?_⟩
    have inside : j < t.toList.length := before
    rw [List.getElem_append_left inside] at same
    exact find?_eq_none.1 missing (same ▸ List.getElem_mem inside)

/-- Two names never share an id. -/
theorem eq_of_intern_eq {other : String} (same : (t.intern name).2 = ((t.intern name).1.intern other).2) :
    name = other := by
  have first := find?_intern_of_some (t.find?_intern name) other
  have second := (t.intern name).1.find?_intern other
  exact (name_of_find? first).2.symm.trans (same ▸ (name_of_find? second).2)

theorem ofList_distinct (names : List String) : (ofList names).Distinct := by
  have keeps (t : NameTable) (distinct : t.Distinct) :
      (names.foldl (fun t name => (t.intern name).1) t).Distinct := by
    induction names generalizing t with
    | nil => exact distinct
    | cons name names ih => exact ih _ (intern_distinct distinct name)
  exact keeps empty .nil

theorem ofList_of_nodup {names : List String} (distinct : names.Nodup) : ofList names = ⟨names.toArray⟩ := by
  have grows (before names : List String) (distinct : (before ++ names).Nodup) :
      names.foldl (fun (t : NameTable) name => (t.intern name).1) ⟨before.toArray⟩ = ⟨(before ++ names).toArray⟩ := by
    induction names generalizing before with
    | nil => simp
    | cons name names ih =>
      have fresh : (⟨before.toArray⟩ : NameTable).find? name = none := by
        rw [find?_eq_none]
        exact fun here => (List.nodup_append.1 distinct).2.2 name here name List.mem_cons_self rfl
      have step : ((⟨before.toArray⟩ : NameTable).intern name).1 = ⟨(before ++ [name]).toArray⟩ := by
        simp [intern, fresh]
      rw [List.foldl_cons, step, ih (before ++ [name]) (by simpa using distinct)]
      simp
  exact grows [] names distinct

/-- Names are numbered by their first occurrences. -/
theorem toList_ofList (names : List String) : (ofList names).toList = names.eraseDups := by
  induction names using List.reverseRecOn with
  | nil => rfl
  | append_singleton names name ih =>
    have last : ofList (names ++ [name]) = ((ofList names).intern name).1 := by simp [ofList]
    rw [last, List.eraseDups_append, ← ih]
    have known : (ofList names).find? name = none ↔ name ∉ names := by rw [find?_eq_none, ih, List.mem_eraseDups]
    cases found : (ofList names).find? name with
    | some id =>
      have member : name ∈ names := by
        by_contra missing
        rw [known.2 missing] at found
        cases found
      simp [intern, found, List.removeAll, member]
    | none => simp [intern, found, toList, List.removeAll, known.1 found, List.eraseDups_cons]

theorem size_ofList_eq_iff {names : List String} : (ofList names).size = names.length ↔ names.Nodup := by
  constructor
  · intro size
    have distinct : (ofList names).toList.Nodup := ofList_distinct names
    have within : (ofList names).toList ⊆ names := by
      intro name
      rw [toList_ofList, List.mem_eraseDups]
      exact id
    have count : (ofList names).toList.length = names.length := size
    exact ((distinct.subperm within).perm_of_length_le (Nat.le_of_eq count.symm)).nodup_iff.1 distinct
  · intro distinct
    rw [ofList_of_nodup distinct]
    rfl

/-- A table that keeps the ids of another one begins with its names. -/
theorem toList_prefix {u : NameTable} (issued : t.size ≤ u.size) (names : ∀ id < t.size, u.name id = t.name id) :
    t.toList <+: u.toList := by
  rw [List.prefix_iff_getElem?]
  intro id inside
  have old : id < t.names.size := by simpa [toList] using inside
  have here : id < u.names.size := Nat.lt_of_lt_of_le old issued
  have same := names id old
  simp only [NameTable.name, Array.getD, old, here, dif_pos] at same
  simp only [toList, Array.getElem?_toList, Array.getElem_toList, Array.getElem?_eq_getElem here]
  exact congrArg some same

end Gradual.NameTable
