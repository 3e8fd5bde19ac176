import Gradual.Types.Printer
import Mathlib.Data.List.Forall2
import Mathlib.Data.List.Infix

/-!
The text of a type as a tree. A sketch takes a text apart into the words of each node and the texts of its parts, with
labels where nodes are marked and where they are referred to. A text is read in one way only: sketches are told apart by
their texts, whatever follows, as long as that does not go on with the number of a label or a mark. Main statement:
`Sketch.WellShaped.text_inj`.
-/
namespace Gradual

inductive Lead where
  | prim (p : Prim)
  | label
  | closure (code : CodeKind)
  | object
  | array
  | map
  deriving DecidableEq, Repr

inductive Form where
  | closure (code : CodeKind) (arity : Nat)
  /-- Ids in the order in which they are written, with the read-only flags. -/
  | object (fields : List (PropId × Bool))
  | array
  | map
  deriving DecidableEq, Repr

inductive Sketch where
  | prim (p : Prim)
  /-- A reference `#0` to a node around this place. -/
  | back (label : Nat)
  /-- `#0=` and the node that it marks. -/
  | mark (label : Nat) (inner : Sketch)
  | node (form : Form) (parts : List Sketch)

namespace Lead

def word : Lead → String
  | prim p => p.name
  | label => "#"
  | closure code => code.name ++ "("
  | object => "\x7b"
  | array => "["
  | map => "map<"

def all : List Lead :=
  [prim .int, prim .float, prim .bool, prim .string, prim .void, prim .top, label, closure .function, closure .method,
    closure .constructor, object, array, map]

theorem eq_of_begins : ∀ l ∈ all, ∀ l' ∈ all, l.word.toList <+: l'.word.toList → l = l' := by decide

/-- No word begins another one. -/
theorem word_inj {l l' : Lead} (known : l ∈ all) (known' : l' ∈ all) {r r' : List Char}
    (same : l.word.toList ++ r = l'.word.toList ++ r') : l = l' ∧ r = r' := by
  have equal : l = l' := by
    rcases List.append_eq_append_iff.1 same with ⟨more, longer, _⟩ | ⟨more, longer, _⟩
    · exact eq_of_begins l known l' known' ⟨more, longer.symm⟩
    · exact (eq_of_begins l' known' l known ⟨more, longer.symm⟩).symm
  subst equal
  exact ⟨rfl, List.append_cancel_left same⟩

end Lead

namespace Form

def lead : Form → Lead
  | closure code _ => .closure code
  | object _ => .object
  | array => .array
  | map => .map

def count : Form → Nat
  | closure code arity => if code = .constructor then arity + 2 else arity + 1
  | object fields => fields.length
  | array | map => 1

def fieldText (field : PropId × Bool) : String :=
  (if field.2 then "ro " else "") ++ propertyText (fun _ => "") field.1 ++ ": "

def rest : Form → List String → String
  | closure _ arity, parts =>
    ", ".intercalate (parts.take arity) ++ ") -> " ++ " proto ".intercalate (parts.drop arity)
  | object fields, parts =>
    ", ".intercalate (List.zipWith (fun field type => fieldText field ++ type) fields parts) ++ "\x7d"
  | array, parts => String.join parts ++ "]"
  | map, parts => String.join parts ++ ">"

end Form

namespace Sketch

def text : Sketch → String
  | prim p => p.name
  | back label => s!"#{label}"
  | mark label inner => s!"#{label}=" ++ inner.text
  | node form parts => form.lead.word ++ form.rest (parts.map text)

def labels : Sketch → List Nat
  | prim _ | back _ => []
  | mark label inner => label :: inner.labels
  | node _ parts => parts.flatMap labels

def lead : Sketch → Lead
  | prim p => .prim p
  | back _ | mark _ _ => .label
  | node form _ => form.lead

inductive WellShaped : Sketch → Prop where
  | prim (p : Prim) : WellShaped (prim p)
  | back (label : Nat) : WellShaped (back label)
  | mark {label : Nat} {inner : Sketch} (shaped : WellShaped inner) : WellShaped (mark label inner)
  | node {form : Form} {parts : List Sketch} (known : form.lead ∈ Lead.all) (count : parts.length = form.count)
      (shaped : ∀ s ∈ parts, WellShaped s) : WellShaped (node form parts)

end Sketch

/-- What follows a text can be told from the end of a number and from a mark. -/
def Breaks (r : List Char) : Prop := ∀ c ∈ r.head?, c.isDigit = false ∧ c ≠ '='

theorem Breaks.cons {c : Char} (ends : c.isDigit = false ∧ c ≠ '=') (r : List Char) : Breaks (c :: r) := by
  intro x head
  cases head
  exact ends

theorem not_breaks_equals (r : List Char) : ¬ Breaks ('=' :: r) := fun breaks => (breaks '=' rfl).2 rfl

theorem Breaks.digit {r : List Char} (breaks : Breaks r) : ∀ c ∈ r.head?, c.isDigit = false :=
  fun c head => (breaks c head).1

theorem head_digit {c : Char} (other : c.isDigit = false) (r : List Char) :
    ∀ d ∈ (c :: r).head?, d.isDigit = false := by
  intro d head
  cases head
  exact other

/-- A number ends where its digits end. -/
theorem digits_inj {n n' : Nat} {r r' : List Char} (ends : ∀ c ∈ r.head?, c.isDigit = false)
    (ends' : ∀ c ∈ r'.head?, c.isDigit = false) (same : Nat.toDigits 10 n ++ r = Nat.toDigits 10 n' ++ r') :
    n = n' ∧ r = r' := by
  have digits (n : Nat) {r : List Char} (ends : ∀ c ∈ r.head?, c.isDigit = false) :
      (Nat.toDigits 10 n ++ r).takeWhile Char.isDigit = Nat.toDigits 10 n := by
    rw [List.takeWhile_append_of_pos fun c member => Nat.isDigit_of_mem_toDigits (by decide) (by decide) member]
    cases r with
    | nil => simp
    | cons c r => simp [ends c rfl]
  have equal := congrArg (List.takeWhile Char.isDigit) same
  rw [digits n ends, digits n' ends'] at equal
  refine ⟨?_, List.append_cancel_left (equal ▸ same)⟩
  rw [← Nat.ofDigitChars_ten_toDigits (n := n), equal, Nat.ofDigitChars_ten_toDigits]

/-- The element can be read off the front of a text: no other one can stand there. -/
def Reads {α : Type} (code : α → List Char) (ok : α → Prop) (x : α) : Prop :=
  ∀ y, ok y → ∀ r r', Breaks r → Breaks r' → code x ++ r = code y ++ r' → x = y ∧ r = r'

namespace Reads

variable {α : Type} {code : α → List Char} {ok : α → Prop} {xs ys : List α} {k k' : List Char} {c : Char}

theorem breaks_flatMap (xs : List α) (closes : k.head? = some c) (ends : c.isDigit = false ∧ c ≠ '=') :
    Breaks (xs.flatMap (fun x => ',' :: ' ' :: code x) ++ k) := by
  cases xs with
  | nil =>
    intro d head
    cases closes.symm.trans head
    exact ends
  | cons x xs => exact .cons (by decide) _

/-- Elements that are each led by a comma, up to a character that is none. -/
theorem list_inj (reads : ∀ x ∈ xs, Reads code ok x) (all : ∀ y ∈ ys, ok y) (closes : k.head? = some c)
    (closes' : k'.head? = some c) (ends : c.isDigit = false ∧ c ≠ '=') (other : c ≠ ',')
    (same : xs.flatMap (fun x => ',' :: ' ' :: code x) ++ k = ys.flatMap (fun y => ',' :: ' ' :: code y) ++ k') :
    xs = ys ∧ k = k' := by
  induction xs generalizing ys with
  | nil =>
    cases ys with
    | nil => exact ⟨rfl, same⟩
    | cons y ys =>
      have comma : k.head? = some ',' := congrArg List.head? same
      exact absurd (Option.some.inj (closes.symm.trans comma)) other
  | cons x xs ih =>
    obtain ⟨here, later⟩ := List.forall_mem_cons.1 reads
    cases ys with
    | nil =>
      have comma : k'.head? = some ',' := congrArg List.head? same.symm
      exact absurd (Option.some.inj (closes'.symm.trans comma)) other
    | cons y ys =>
      obtain ⟨first, others⟩ := List.forall_mem_cons.1 all
      simp only [List.flatMap_cons, List.cons_append, List.append_assoc, List.cons.injEq, true_and] at same
      obtain ⟨rfl, tails⟩ := here y first _ _ (breaks_flatMap xs closes ends) (breaks_flatMap ys closes' ends) same
      obtain ⟨rfl, rests⟩ := ih later others tails
      exact ⟨rfl, rests⟩

/-- Elements with commas between them, up to a character that none of them begins with. -/
theorem intercalate_inj (reads : ∀ x ∈ xs, Reads code ok x) (all : ∀ x ∈ xs, ok x) (all' : ∀ y ∈ ys, ok y)
    (starts : ∀ x, ok x → ∃ d l, code x = d :: l ∧ d ≠ c) (closes : k.head? = some c) (closes' : k'.head? = some c)
    (ends : c.isDigit = false ∧ c ≠ '=') (other : c ≠ ',')
    (same : ", ".toList.intercalate (xs.map code) ++ k = ", ".toList.intercalate (ys.map code) ++ k') :
    xs = ys ∧ k = k' := by
  have spread (x : α) (xs : List α) : ", ".toList.intercalate ((x :: xs).map code) =
      code x ++ xs.flatMap (fun x => ',' :: ' ' :: code x) := by
    induction xs generalizing x with
    | nil => simp
    | cons y xs ih =>
      rw [List.map_cons, List.map_cons, List.intercalate_cons_cons, ← List.map_cons, ih]
      simp
  cases xs with
  | nil =>
    cases ys with
    | nil => exact ⟨rfl, by simpa using same⟩
    | cons y ys =>
      obtain ⟨d, l, begins, different⟩ := starts y (all' y List.mem_cons_self)
      rw [spread, begins] at same
      have first : k.head? = some d := by simpa using congrArg List.head? same
      exact absurd (Option.some.inj (first.symm.trans closes)) different
  | cons x xs =>
    obtain ⟨here, later⟩ := List.forall_mem_cons.1 reads
    cases ys with
    | nil =>
      obtain ⟨d, l, begins, different⟩ := starts x (all x List.mem_cons_self)
      rw [spread, begins] at same
      have first : k'.head? = some d := by simpa using congrArg List.head? same.symm
      exact absurd (Option.some.inj (first.symm.trans closes')) different
    | cons y ys =>
      rw [spread, spread, List.append_assoc, List.append_assoc] at same
      obtain ⟨first, others⟩ := List.forall_mem_cons.1 all'
      obtain ⟨rfl, tails⟩ := here y first _ _ (breaks_flatMap xs closes ends) (breaks_flatMap ys closes' ends) same
      obtain ⟨rfl, rests⟩ := list_inj later others closes closes' ends other tails
      exact ⟨rfl, rests⟩

end Reads

theorem toString_string (s : String) : toString s = s := rfl

theorem Form.fieldText_inj {field field' : PropId × Bool} {r r' : List Char}
    (same : (fieldText field).toList ++ r = (fieldText field').toList ++ r') : field = field' ∧ r = r' := by
  obtain ⟨id, readOnly⟩ := field
  obtain ⟨id', readOnly'⟩ := field'
  have number (same : Nat.toDigits 10 id ++ ':' :: ' ' :: r = Nat.toDigits 10 id' ++ ':' :: ' ' :: r') :
      id = id' ∧ r = r' := by
    obtain ⟨rfl, rests⟩ := digits_inj (head_digit rfl _) (head_digit rfl _) same
    exact ⟨rfl, by simpa using rests⟩
  cases readOnly <;> cases readOnly' <;> simp [fieldText, propertyText, toString_string] at same
  all_goals
    obtain ⟨rfl, rests⟩ := number same
    exact ⟨rfl, rests⟩

namespace Sketch

variable {s s' : Sketch} {r r' : List Char}

def chars (s : Sketch) : List Char := s.text.toList

def tail : Sketch → List Char
  | prim _ => []
  | back label => Nat.toDigits 10 label
  | mark label inner => Nat.toDigits 10 label ++ '=' :: inner.chars
  | node form parts => (form.rest (parts.map text)).toList

theorem chars_eq (s : Sketch) : s.chars = s.lead.word.toList ++ s.tail := by
  cases s with
  | prim | node => simp [chars, text, lead, tail, Lead.word]
  | back | mark => simp [chars, text, lead, tail, Lead.word, toString_string]

theorem WellShaped.lead_mem (shaped : s.WellShaped) : s.lead ∈ Lead.all := by
  cases shaped with
  | prim p => cases p <;> decide
  | back | mark => exact (by decide : Lead.label ∈ Lead.all)
  | node known => exact known

/-- Texts that agree begin with the same word. -/
theorem WellShaped.lead_inj (shaped : s.WellShaped) (shaped' : s'.WellShaped) (same : s.chars ++ r = s'.chars ++ r') :
    s.lead = s'.lead ∧ s.tail ++ r = s'.tail ++ r' := by
  rw [chars_eq, chars_eq, List.append_assoc, List.append_assoc] at same
  exact Lead.word_inj shaped.lead_mem shaped'.lead_mem same

theorem WellShaped.starts (shaped : s.WellShaped) : ∃ d l, s.chars = d :: l ∧ d ≠ ')' ∧ d ≠ '\x7d' := by
  have first : ∀ l ∈ Lead.all, l.word.toList.head?.any (fun d => d ≠ ')' ∧ d ≠ '\x7d') = true := by decide
  obtain ⟨d, head, other⟩ := (Option.any_eq_true _ _).1 (first s.lead shaped.lead_mem)
  obtain ⟨l, word⟩ : ∃ l, s.lead.word.toList = d :: l := List.head?_eq_some_iff.1 head
  exact ⟨d, l ++ s.tail, by rw [chars_eq, word, List.cons_append], of_decide_eq_true other⟩

variable {form form' : Form} {parts parts' : List Sketch}

def Readable (parts : List Sketch) : Prop := ∀ s ∈ parts, s.WellShaped ∧ Reads chars WellShaped s

theorem Readable.subset (readable : Readable parts) (fewer : parts' ⊆ parts) : Readable parts' :=
  fun s member => readable s (fewer member)

/-- Result and prototype of a constructor, and the result alone of other closures. -/
theorem results_inj {code : CodeKind} (readable : Readable parts) (shaped : ∀ s ∈ parts', s.WellShaped)
    (count : parts.length = if code = .constructor then 2 else 1)
    (count' : parts'.length = if code = .constructor then 2 else 1) (breaks : Breaks r) (breaks' : Breaks r')
    (same : " proto ".toList.intercalate (parts.map chars) ++ r =
      " proto ".toList.intercalate (parts'.map chars) ++ r') :
    parts = parts' ∧ r = r' := by
  by_cases ctor : code = .constructor
  · rw [if_pos ctor] at count count'
    obtain ⟨ret, proto, rfl⟩ := List.length_eq_two.1 count
    obtain ⟨ret', proto', rfl⟩ := List.length_eq_two.1 count'
    simp only [List.map_cons, List.map_nil, List.intercalate_cons_cons, List.intercalate_singleton,
      List.append_assoc] at same
    have space (q : List Char) : Breaks (" proto ".toList ++ q) := .cons (by decide) _
    obtain ⟨rfl, protos⟩ := (readable ret (by simp)).2 ret' (shaped ret' (by simp)) _ _ (space _) (space _) same
    obtain ⟨rfl, rests⟩ := (readable proto (by simp)).2 proto' (shaped proto' (by simp)) _ _ breaks breaks'
      (List.append_cancel_left protos)
    exact ⟨rfl, rests⟩
  · rw [if_neg ctor] at count count'
    obtain ⟨ret, rfl⟩ := List.length_eq_one_iff.1 count
    obtain ⟨ret', rfl⟩ := List.length_eq_one_iff.1 count'
    simp only [List.map_cons, List.map_nil, List.intercalate_singleton] at same
    obtain ⟨rfl, rests⟩ := (readable ret (by simp)).2 ret' (shaped ret' (by simp)) _ _ breaks breaks' same
    exact ⟨rfl, rests⟩

theorem closure_inj {code : CodeKind} {arity arity' : Nat} (readable : Readable parts)
    (shaped : ∀ s ∈ parts', s.WellShaped)
    (count : parts.length = (Form.closure code arity).count) (count' : parts'.length = (Form.closure code arity').count)
    (breaks : Breaks r) (breaks' : Breaks r')
    (same : (node (.closure code arity) parts).tail ++ r = (node (.closure code arity') parts').tail ++ r') :
    arity = arity' ∧ parts = parts' ∧ r = r' := by
  simp only [tail, Form.rest, String.toList_append, String.toList_intercalate, ← List.map_take, ← List.map_drop,
    List.map_map, Function.comp_def, List.append_assoc] at same
  have results {arity : Nat} {parts : List Sketch} (count : parts.length = (Form.closure code arity).count) :
      arity ≤ parts.length ∧ (parts.drop arity).length = if code = .constructor then 2 else 1 := by
    rw [List.length_drop, count, Form.count]
    split <;> omega
  have first := readable.subset (List.take_subset arity parts)
  obtain ⟨args, rests⟩ := Reads.intercalate_inj (c := ')') (fun s member => (first s member).2)
    (fun s member => (first s member).1) (fun s member => shaped s (List.mem_of_mem_take member))
    (fun s shaped => have ⟨d, l, begins, other, _⟩ := shaped.starts; ⟨d, l, begins, other⟩) rfl rfl (by decide)
    (by decide) same
  have equal : arity = arity' := by
    have lengths := congrArg List.length args
    rwa [List.length_take_of_le (results count).1, List.length_take_of_le (results count').1] at lengths
  subst equal
  obtain ⟨last, rests⟩ := results_inj (readable.subset (List.drop_subset arity parts))
    (fun s member => shaped s (List.mem_of_mem_drop member)) (results count).2 (results count').2 breaks breaks'
    (List.append_cancel_left rests)
  exact ⟨rfl, by rw [← List.take_append_drop arity parts, args, last, List.take_append_drop], rests⟩

theorem object_inj {fields fields' : List (PropId × Bool)} (readable : Readable parts)
    (shaped : ∀ s ∈ parts', s.WellShaped) (count : parts.length = fields.length)
    (count' : parts'.length = fields'.length)
    (same : (node (.object fields) parts).tail ++ r = (node (.object fields') parts').tail ++ r') :
    fields = fields' ∧ parts = parts' ∧ r = r' := by
  let code (entry : (PropId × Bool) × Sketch) : List Char := (Form.fieldText entry.1).toList ++ entry.2.chars
  have entries (fields : List (PropId × Bool)) (parts : List Sketch) (r : List Char) :
      (node (.object fields) parts).tail ++ r =
        ", ".toList.intercalate ((fields.zip parts).map code) ++ ('\x7d' :: r) := by
    have zipped : (List.zipWith (fun field type => Form.fieldText field ++ type) fields (parts.map text)).map
        String.toList = (fields.zip parts).map code := by
      rw [List.zipWith_map_right, List.map_zipWith, List.zip, List.map_zipWith]
      simp only [String.toList_append]
      rfl
    rw [tail, Form.rest, String.toList_append, String.toList_intercalate, zipped, List.append_assoc]
    rfl
  have reads (entry) (member : entry ∈ fields.zip parts) : Reads code (fun entry => entry.2.WellShaped) entry := by
    intro entry' shaped' r r' breaks breaks' same
    simp only [code, List.append_assoc] at same
    obtain ⟨field, same⟩ := Form.fieldText_inj same
    obtain ⟨part, rests⟩ := (readable _ (List.of_mem_zip member).2).2 _ shaped' r r' breaks breaks' same
    exact ⟨Prod.ext field part, rests⟩
  have starts (entry : (PropId × Bool) × Sketch) : ∃ d l, code entry = d :: l ∧ d ≠ '\x7d' := by
    obtain ⟨⟨id, readOnly⟩, s⟩ := entry
    cases readOnly <;> simp [code, Form.fieldText, propertyText, toString_string]
  rw [entries, entries] at same
  obtain ⟨zips, rests⟩ := Reads.intercalate_inj (c := '\x7d') reads
    (fun _ member => (readable _ (List.of_mem_zip member).2).1) (fun _ member => shaped _ (List.of_mem_zip member).2)
    (fun entry _ => starts entry) rfl rfl (by decide) (by decide) same
  refine ⟨?_, ?_, (List.cons.inj rests).2⟩
  · rw [← List.map_fst_zip (Nat.le_of_eq count.symm), zips, List.map_fst_zip (Nat.le_of_eq count'.symm)]
  · rw [← List.map_snd_zip (Nat.le_of_eq count), zips, List.map_snd_zip (Nat.le_of_eq count')]

theorem element_inj {c : Char} (ends : c.isDigit = false ∧ c ≠ '=') (readable : Readable parts)
    (shaped : ∀ s ∈ parts', s.WellShaped) (count : parts.length = 1) (count' : parts'.length = 1)
    (same : (String.join (parts.map text)).toList ++ c :: r = (String.join (parts'.map text)).toList ++ c :: r') :
    parts = parts' ∧ r = r' := by
  obtain ⟨s, rfl⟩ := List.length_eq_one_iff.1 count
  obtain ⟨s', rfl⟩ := List.length_eq_one_iff.1 count'
  simp only [List.map_cons, List.map_nil, String.toList_join, List.flatMap_singleton] at same
  obtain ⟨rfl, rests⟩ := (readable s (by simp)).2 s' (shaped s' (by simp)) _ _ (.cons ends _) (.cons ends _) same
  exact ⟨rfl, (List.cons.inj rests).2⟩

/-- A node is read from its first word on. -/
theorem node_inj (readable : Readable parts) (shaped : ∀ s ∈ parts', s.WellShaped) (count : parts.length = form.count)
    (count' : parts'.length = form'.count) (lead : form.lead = form'.lead) (breaks : Breaks r) (breaks' : Breaks r')
    (same : (node form parts).tail ++ r = (node form' parts').tail ++ r') :
    form = form' ∧ parts = parts' ∧ r = r' := by
  cases form with
  | closure code arity =>
    cases form' with
    | closure code' arity' =>
      cases lead
      obtain ⟨rfl, equal⟩ := closure_inj readable shaped count count' breaks breaks' same
      exact ⟨rfl, equal⟩
    | _ => cases lead
  | object fields =>
    cases form' with
    | object fields' =>
      obtain ⟨rfl, equal⟩ := object_inj readable shaped count count' same
      exact ⟨rfl, equal⟩
    | _ => cases lead
  | array =>
    cases form' with
    | array =>
      simp only [tail, Form.rest, String.toList_append, List.append_assoc] at same
      exact ⟨rfl, element_inj (by decide) readable shaped count count' same⟩
    | _ => cases lead
  | map =>
    cases form' with
    | map =>
      simp only [tail, Form.rest, String.toList_append, List.append_assoc] at same
      exact ⟨rfl, element_inj (by decide) readable shaped count count' same⟩
    | _ => cases lead

/-- A sketch is read off the front of a text in one way. -/
theorem WellShaped.reads (shaped : s.WellShaped) : Reads chars WellShaped s := by
  induction shaped with
  | prim p =>
    intro s' shaped' r r' breaks breaks' same
    obtain ⟨lead, tails⟩ := (WellShaped.prim p).lead_inj shaped' same
    cases shaped' with
    | prim p' =>
      cases lead
      exact ⟨rfl, tails⟩
    | @node form _ _ _ => cases form <;> cases lead
    | _ => cases lead
  | back label =>
    intro s' shaped' r r' breaks breaks' same
    obtain ⟨lead, tails⟩ := (WellShaped.back label).lead_inj shaped' same
    cases shaped' with
    | back label' =>
      obtain ⟨rfl, rests⟩ := digits_inj breaks.digit breaks'.digit tails
      exact ⟨rfl, rests⟩
    | mark =>
      simp only [tail, List.append_assoc, List.cons_append] at tails
      obtain ⟨_, rfl⟩ := digits_inj breaks.digit (head_digit rfl _) tails
      exact absurd breaks (not_breaks_equals _)
    | prim => cases lead
    | @node form _ _ _ => cases form <;> cases lead
  | @mark label inner shaped ih =>
    intro s' shaped' r r' breaks breaks' same
    obtain ⟨lead, tails⟩ := (WellShaped.mark shaped).lead_inj shaped' same
    simp only [tail, List.append_assoc, List.cons_append] at tails
    cases shaped' with
    | back label' =>
      obtain ⟨_, rfl⟩ := digits_inj (head_digit rfl _) breaks'.digit tails
      exact absurd breaks' (not_breaks_equals _)
    | mark shaped' =>
      simp only [List.append_assoc, List.cons_append] at tails
      obtain ⟨rfl, inners⟩ := digits_inj (head_digit rfl _) (head_digit rfl _) tails
      obtain ⟨rfl, rests⟩ := ih _ shaped' r r' breaks breaks' (List.cons.inj inners).2
      exact ⟨rfl, rests⟩
    | prim => cases lead
    | @node form _ _ _ => cases form <;> cases lead
  | @node form parts known count shaped ih =>
    intro s' shaped' r r' breaks breaks' same
    obtain ⟨lead, tails⟩ := (WellShaped.node known count shaped).lead_inj shaped' same
    cases shaped' with
    | node known' count' shaped' =>
      obtain ⟨rfl, rfl, rests⟩ := node_inj (fun s member => ⟨shaped s member, ih s member⟩) shaped' count count' lead
        breaks breaks' tails
      exact ⟨rfl, rests⟩
    | _ => cases form <;> cases lead

theorem WellShaped.text_inj (shaped : s.WellShaped) (shaped' : s'.WellShaped) (same : s.text = s'.text) : s = s' := by
  have nothing : Breaks [] := nofun
  exact (shaped.reads s' shaped' [] [] nothing nothing (by rw [chars, chars, same])).1

end Sketch

end Gradual
