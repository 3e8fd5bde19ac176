import Mathlib.Algebra.Group.Nat.Defs
import Gradual.Proofs.Value.Word

/-!
Values and words. A value that can be packed comes back from its word in normal form: a not-a-number is the
canonical one, a reference with handle zero is null, and fields that do not belong to the kind are blank. Two
values share a word only if they share this form, so the regions of references, doubles and immediates are
apart. Apart from the words of values only two sorts of words can be read, the numbers 1 to 7 and doubles
that hold another not-a-number.
-/
namespace Gradual

def ValueKind.code : ValueKind → Nat
  | int => 1
  | double => 2
  | bool => 3
  | undefined => 4
  | null => 5
  | object => 6
  | string => 7
  | closure => 8
  | box => 9

/-- A value as a record with one field for each kind of content, of which the kind says which one counts. -/
structure Fields where
  code : Nat
  int : Int32
  double : Double
  bool : Bool
  ref : Ref
  deriving DecidableEq, Repr

namespace Fields

def blank (k : ValueKind) : Fields := ⟨k.code, 0, ⟨0⟩, false, 0⟩

def value (f : Fields) : Except WordError Value := Value.ofFields f.code f.int f.double f.bool f.ref

def encode (f : Fields) : Except WordError Word := f.value.bind Value.encode

def Accepted (f : Fields) : Prop :=
  ∃ k, ValueKind.ofCode? f.code = some k ∧ (k.isReference = true → f.ref ≤ maxRef)

def normal (f : Fields) : Fields :=
  match ValueKind.ofCode? f.code with
  | some .int => { blank .int with int := f.int }
  | some .double => { blank .double with double := f.double.canonical }
  | some .bool => { blank .bool with bool := f.bool }
  | some .undefined => blank .undefined
  | some .null => blank .null
  | some k => if f.ref = 0 then blank .null else { blank k with ref := f.ref }
  | none => f

end Fields

namespace Value

def fields : Value → Fields
  | int n => { Fields.blank .int with int := n }
  | double d => { Fields.blank .double with double := d }
  | bool b => { Fields.blank .bool with bool := b }
  | undefined => Fields.blank .undefined
  | null => Fields.blank .null
  | object r => { Fields.blank .object with ref := r }
  | string r => { Fields.blank .string with ref := r }
  | closure r => { Fields.blank .closure with ref := r }
  | box r => { Fields.blank .box with ref := r }

/-- What is left of a value in its word. -/
def normal : Value → Value
  | double d => .double d.canonical
  | object r => if r = 0 then .null else .object r
  | string r => if r = 0 then .null else .string r
  | closure r => if r = 0 then .null else .closure r
  | box r => if r = 0 then .null else .box r
  | v => v

theorem ofFields_fields (v : Value) : v.fields.value = .ok v := by cases v <;> rfl

theorem encode_fields (v : Value) : v.fields.encode = v.encode := by
  rw [Fields.encode, v.ofFields_fields, Except.bind]

end Value

namespace Fields

theorem normal_eq {f : Fields} {v : Value} (known : f.value = .ok v) : f.normal = v.normal.fields := by
  unfold value Value.ofFields at known
  unfold normal
  cases kind : ValueKind.ofCode? f.code with
  | none => simp [kind] at known
  | some k =>
    rw [kind] at known
    cases k <;> cases known <;> try rfl
    all_goals
      by_cases zero : f.ref = 0 <;> simp [zero, Value.normal, Value.fields]

end Fields

/-- Numbers end at negative infinity, so there is room for the offset above them. -/
theorem Double.canonical_le (d : Double) : d.canonical.bits.toNat ≤ 0xFFF0000000000000 := by
  have bound : d.bits.toNat < 2 ^ 64 := d.bits.toNat_lt
  unfold canonical
  split
  · decide
  · rename_i number
    have finite : d.biased = 2047 → d.fraction = 0 := by simpa [isNaN] using number
    simp only [biased, fraction] at finite
    omega

@[simp] theorem Double.canonical_canonical (d : Double) : d.canonical.canonical = d.canonical := by
  unfold canonical
  split
  · rfl
  · simp [*]

namespace Word

/-- The offset of doubles never wraps. -/
theorem ofDouble_toNat (d : Double) : (ofDouble d).bits.toNat = d.canonical.bits.toNat + 2 ^ 48 := by
  have room := d.canonical_le
  rw [ofDouble, UInt64.toNat_add]
  simp only [UInt64.reduceToNat]
  omega

/-- A word whose sixteen bits at the top are neither all clear nor all set. -/
def InDoubles (w : Word) : Prop := 2 ^ 48 ≤ w.bits.toNat ∧ w.bits.toNat < 0xFFFF * 2 ^ 48

theorem ext_toNat {w u : Word} (same : w.bits.toNat = u.bits.toNat) : w = u := by
  obtain ⟨w⟩ := w
  obtain ⟨u⟩ := u
  exact congrArg Word.mk (UInt64.toNat_inj.1 same)

theorem top_toNat (w : Word) : (w.bits >>> 48).toNat = w.bits.toNat / 2 ^ 48 := by
  rw [UInt64.toNat_shiftRight, Nat.shiftRight_eq_div_pow]
  rfl

/-- Words between the two other regions hold a double each. -/
theorem InDoubles.decode? {w : Word} (between : w.InDoubles) :
    ∃ d : Double, w.decode? = some (.double d) ∧ w.bits.toNat = d.bits.toNat + 2 ^ 48 := by
  obtain ⟨above, below⟩ := between
  have top := w.top_toNat
  have clear : w.bits >>> 48 ≠ 0 := by
    intro zero
    simp only [zero, UInt64.reduceToNat] at top
    omega
  have set : w.bits >>> 48 ≠ 0xFFFF := by
    intro full
    simp only [full, UInt64.reduceToNat] at top
    omega
  have lowered : (w.bits - 0x0001000000000000).toNat = w.bits.toNat - 2 ^ 48 :=
    UInt64.toNat_sub_of_le _ _ (UInt64.le_iff_toNat_le.2 above)
  refine ⟨⟨w.bits - 0x0001000000000000⟩, by simp [Word.decode?, clear, set], ?_⟩
  rw [lowered]
  omega

theorem ofDouble_inDoubles (d : Double) : (ofDouble d).InDoubles := by
  have room := d.canonical_le
  rw [InDoubles, ofDouble_toNat]
  omega

theorem ofBool_decode? (b : Bool) : (ofBool b).decode? = some (.bool b) := by cases b <;> decide

theorem ofDouble_decode? (d : Double) : (ofDouble d).decode? = some (.double d.canonical) := by
  obtain ⟨read, known, bits⟩ := (ofDouble_inDoubles d).decode?
  have same : read.bits = d.canonical.bits := by
    apply UInt64.toNat_inj.1
    rw [ofDouble_toNat] at bits
    omega
  rw [known]
  cases read
  cases same
  rfl

end Word

namespace Value

/-- The references of all four kinds are packed alike. -/
theorem decode?_of_ofRef {tag : UInt64} {make : Ref → Value} {r : Ref} {w : Word}
    (reads : r ≠ 0 → r ≤ maxRef → (Word.ofRef tag r).decode? = some (make r))
    (packed : (if r ≤ maxRef then .ok (Word.ofRef tag r) else .error .handleRange) = Except.ok (ε := WordError) w) :
    w.decode? = some (if r = 0 then .null else make r) := by
  by_cases fits : r ≤ maxRef
  · rw [if_pos fits, Except.ok.injEq] at packed
    subst packed
    by_cases zero : r = 0
    · simp [Word.ofRef, zero]
    · rw [reads zero fits, if_neg zero]
  · rw [if_neg fits] at packed
    cases packed

/-- A packed value is read back in normal form. -/
theorem decode?_of_encode {v : Value} {w : Word} (packed : v.encode = .ok w) : w.decode? = some v.normal := by
  cases v with
  | int n => exact Except.ok.inj packed ▸ Word.ofInt_decode? n
  | double d => exact Except.ok.inj packed ▸ Word.ofDouble_decode? d
  | bool b => exact Except.ok.inj packed ▸ Word.ofBool_decode? b
  | undefined => exact Except.ok.inj packed ▸ Word.decode?_undefined
  | null => exact Except.ok.inj packed ▸ Word.decode?_null
  | object r => exact decode?_of_ofRef Word.objectRef_decode? packed
  | string r => exact decode?_of_ofRef Word.stringRef_decode? packed
  | closure r => exact decode?_of_ofRef Word.closureRef_decode? packed
  | box r => exact decode?_of_ofRef Word.boxRef_decode? packed

/-- The normal form of a value has the same word. -/
theorem encode_normal {v : Value} {w : Word} (packed : v.encode = .ok w) : v.normal.encode = .ok w := by
  cases v with
  | double d => simpa [normal, encode, Word.ofDouble] using packed
  | object r | string r | closure r | box r =>
    by_cases zero : r = 0
    · subst zero
      exact packed
    · rwa [normal, if_neg zero]
  | int | bool | undefined | null => exact packed

end Value

namespace Word

def IsStrayNull (w : Word) : Prop := 1 ≤ w.bits.toNat ∧ w.bits.toNat ≤ 7

def IsStrayNaN (w : Word) : Prop :=
  w.InDoubles ∧ ∃ d : Double, d.isNaN = true ∧ d ≠ .canonicalNaN ∧ w.bits.toNat = d.bits.toNat + 2 ^ 48

theorem InDoubles.encode {w : Word} {d : Double} (between : w.InDoubles)
    (bits : w.bits.toNat = d.bits.toNat + 2 ^ 48) : (Value.double d).encode = .ok w ∨ w.IsStrayNaN := by
  by_cases same : d.canonical = d
  · left
    have word : ofDouble d = w := ext_toNat (by rw [ofDouble_toNat, same, bits])
    rw [Value.encode, word]
  · right
    have stray : d.isNaN = true := Decidable.byContradiction fun number => same (if_neg number)
    refine ⟨between, d, stray, ?_, bits⟩
    rintro rfl
    exact same rfl

/-- A word with clear bits at the top is made of its handle and its low bits. -/
theorem ofRef_eq {w : Word} (top : w.bits >>> 48 = 0) (issued : (w.bits >>> 3).toNat ≠ 0) :
    (w.bits >>> 3).toNat ≤ maxRef ∧ ofRef (w.bits &&& 7) (w.bits >>> 3).toNat = w := by
  have below := w.top_toNat
  simp only [top, UInt64.reduceToNat] at below
  have handle : (w.bits >>> 3).toNat = w.bits.toNat / 8 := by
    rw [UInt64.toNat_shiftRight, Nat.shiftRight_eq_div_pow]
    rfl
  have low : (w.bits &&& 7).toNat = w.bits.toNat % 8 := by
    rw [UInt64.toNat_and]
    exact Nat.and_two_pow_sub_one_eq_mod w.bits.toNat 3
  have fits : (w.bits >>> 3).toNat ≤ maxRef := by
    rw [handle, maxRef]
    omega
  refine ⟨fits, ext_toNat ?_⟩
  rw [ofRef_toNat (by omega) issued fits, handle, low]
  omega

/-- Of the words with clear bits at the top, those without a handle are read as null. -/
theorem encode_of_decodeReference? {w : Word} {v : Value} (top : w.bits >>> 48 = 0)
    (read : w.decodeReference? = some v) : v.encode = .ok w ∨ w.IsStrayNull ∧ v = .null := by
  unfold decodeReference? at read
  by_cases zero : (w.bits >>> 3).toNat = 0
  · simp only [zero, if_true, Option.some.injEq] at read
    subst read
    have handle : w.bits.toNat / 8 = 0 := by
      rw [UInt64.toNat_shiftRight, Nat.shiftRight_eq_div_pow] at zero
      exact zero
    by_cases empty : w.bits.toNat = 0
    · exact .inl (congrArg Except.ok (ext_toNat (by rw [empty]; rfl)))
    · exact .inr ⟨⟨by omega, by omega⟩, rfl⟩
  · left
    obtain ⟨fits, whole⟩ := ofRef_eq top zero
    simp only [zero, if_false] at read
    split at read
    case isTrue tag =>
      cases read
      rw [Value.encode, if_pos fits, objectRef, ← tag, whole]
    split at read
    case isTrue tag =>
      cases read
      rw [Value.encode, if_pos fits, boxRef, ← tag, whole]
    split at read
    case isTrue tag =>
      cases read
      rw [Value.encode, if_pos fits, stringRef, ← tag, whole]
    split at read
    case isTrue tag =>
      cases read
      rw [Value.encode, if_pos fits, closureRef, ← tag, whole]
    cases read

theorem encode_of_decodeImmediate? {w : Word} {v : Value} (read : w.decodeImmediate? = some v) :
    v.encode = .ok w := by
  simp only [decodeImmediate?] at read
  split at read
  case isTrue mark =>
    cases read
    have number : w.bits.toNat / 2 ^ 32 = 0xFFFF0000 := by
      have shifted : (w.bits >>> 32).toNat = w.bits.toNat / 2 ^ 32 := by
        rw [UInt64.toNat_shiftRight, Nat.shiftRight_eq_div_pow]
        rfl
      simpa only [mark, UInt64.reduceToNat, eq_comm] using shifted
    have word : ofInt w.bits.toUInt32.toInt32 = w := by
      apply ext_toNat
      rw [ofInt_toNat, UInt32.toUInt32_toInt32, UInt64.toNat_toUInt32]
      omega
    rw [Value.encode, word]
  split at read
  case isTrue bits => cases read; exact congrArg Except.ok (congrArg Word.mk bits.symm)
  split at read
  case isTrue bits => cases read; exact congrArg Except.ok (congrArg Word.mk bits.symm)
  split at read
  case isTrue bits => cases read; exact congrArg Except.ok (congrArg Word.mk bits.symm)
  cases read

/-- Every word that can be read is the word of what is read, or stray. -/
theorem encode_of_decode? {w : Word} {v : Value} (read : w.decode? = some v) :
    v.encode = .ok w ∨ w.IsStrayNull ∧ v = .null ∨ w.IsStrayNaN := by
  have region := w.top_toNat
  have bound : w.bits.toNat < 2 ^ 64 := w.bits.toNat_lt
  by_cases clear : w.bits >>> 48 = 0
  · simp only [decode?, clear, if_true] at read
    exact (encode_of_decodeReference? clear read).imp_right .inl
  by_cases set : w.bits >>> 48 = 0xFFFF
  · simp only [decode?, set] at read
    exact .inl (encode_of_decodeImmediate? read)
  have between : w.InDoubles := by
    have := mt UInt64.toNat_inj.1 clear
    have := mt UInt64.toNat_inj.1 set
    simp only [UInt64.reduceToNat] at *
    constructor <;> omega
  obtain ⟨d, held, bits⟩ := between.decode?
  cases held.symm.trans read
  exact (between.encode bits).imp_right .inr

theorem IsStrayNull.decode? {w : Word} (stray : w.IsStrayNull) : w.decode? = some .null := by
  have top : w.bits >>> 48 = 0 := by
    apply UInt64.toNat_inj.1
    have small := stray.2
    simp only [w.top_toNat, UInt64.reduceToNat]
    omega
  have handle : (w.bits >>> 3).toNat = 0 := by
    rw [UInt64.toNat_shiftRight, Nat.shiftRight_eq_div_pow, Nat.div_eq_zero_iff]
    exact .inr (Nat.lt_succ_of_le stray.2)
  simp [Word.decode?, decodeReference?, top, handle]

/-- No value has a stray word. -/
theorem IsStrayNull.encode_ne {w : Word} (stray : w.IsStrayNull) (v : Value) : v.encode ≠ .ok w := by
  intro packed
  have normal : v.normal = .null := Option.some.inj ((Value.decode?_of_encode packed).symm.trans stray.decode?)
  have word : null = w := by
    have same := Value.encode_normal packed
    rwa [normal, Value.encode, Except.ok.injEq] at same
  have := stray.1
  subst word
  simp [null] at this

theorem IsStrayNaN.encode_ne {w : Word} (stray : w.IsStrayNaN) (v : Value) : v.encode ≠ .ok w := by
  obtain ⟨between, d, nan, other, bits⟩ := stray
  intro packed
  obtain ⟨held, read, same⟩ := between.decode?
  have equal : held = d := by
    cases held
    cases d
    exact congrArg Double.mk (UInt64.toNat_inj.1 (Nat.add_right_cancel (same.symm.trans bits)))
  subst equal
  have normal : v.normal = .double held := Option.some.inj ((Value.decode?_of_encode packed).symm.trans read)
  have word : ofDouble held = w := by
    have same := Value.encode_normal packed
    rwa [normal, Value.encode, Except.ok.injEq] at same
  rw [← word, ofDouble_toNat, Double.canonical, if_pos nan] at bits
  apply other
  cases held
  exact congrArg Double.mk (UInt64.toNat_inj.1 (Nat.add_right_cancel bits)).symm

def fields (w : Word) : Except WordError Fields := w.decode.map Value.fields

theorem fields_eq_ok_iff {w : Word} {f : Fields} : w.fields = .ok f ↔ ∃ v, w.decode? = some v ∧ v.fields = f := by
  unfold fields decode
  cases w.decode? <;> simp [Except.map]

theorem fields_eq_error {w : Word} (unread : w.decode? = none) : w.fields = .error (.malformed w) := by
  simp [fields, decode, unread, Except.map]

def Stored (w : Word) : Prop := ∃ f : Fields, f.encode = .ok w

end Word

namespace Fields

theorem encode_eq_ok_iff {f : Fields} {w : Word} : f.encode = .ok w ↔ ∃ v, f.value = .ok v ∧ v.encode = .ok w := by
  unfold encode
  cases f.value <;> simp [Except.bind]

/-- Exactly the accepted fields can be packed. -/
theorem encode_isOk_iff (f : Fields) : (∃ w, f.encode = .ok w) ↔ f.Accepted := by
  unfold encode value Value.ofFields Accepted
  cases ValueKind.ofCode? f.code with
  | none => simp [Except.bind]
  | some k =>
    by_cases fits : f.ref ≤ maxRef <;>
      cases k <;> simp [Except.bind, Value.encode, ValueKind.isReference, fits]

theorem fields_of_encode {f : Fields} {w : Word} (packed : f.encode = .ok w) : w.fields = .ok f.normal := by
  obtain ⟨v, known, word⟩ := encode_eq_ok_iff.1 packed
  exact Word.fields_eq_ok_iff.2 ⟨v.normal, Value.decode?_of_encode word, (normal_eq known).symm⟩

theorem normal_encode {f : Fields} {w : Word} (packed : f.encode = .ok w) : f.normal.encode = .ok w := by
  obtain ⟨v, known, word⟩ := encode_eq_ok_iff.1 packed
  rw [normal_eq known, Value.encode_fields, Value.encode_normal word]

/-- Fields share a word exactly if they share their normal form. -/
theorem same_word_iff {f g : Fields} (fitting : f.Accepted) (other : g.Accepted) :
    f.encode = g.encode ↔ f.normal = g.normal := by
  obtain ⟨w, word⟩ := f.encode_isOk_iff.2 fitting
  obtain ⟨u, packed⟩ := g.encode_isOk_iff.2 other
  constructor
  · intro same
    have reads := fields_of_encode (same ▸ word)
    rw [fields_of_encode word, Except.ok.injEq] at reads
    exact reads
  · intro same
    have shared := normal_encode word
    rw [same, normal_encode packed] at shared
    rw [word, packed, shared]

end Fields

namespace Word

theorem Stored.fields {w : Word} (stored : w.Stored) : ∃ f, w.fields = .ok f ∧ f.encode = .ok w := by
  obtain ⟨f, packed⟩ := stored
  exact ⟨f.normal, f.fields_of_encode packed, f.normal_encode packed⟩

theorem Stored.not_stray {w : Word} (stored : w.Stored) : ¬ (w.IsStrayNull ∨ w.IsStrayNaN) := by
  obtain ⟨f, packed⟩ := stored
  obtain ⟨v, -, word⟩ := Fields.encode_eq_ok_iff.1 packed
  rintro (stray | stray)
  · exact stray.encode_ne v word
  · exact stray.encode_ne v word

/-- A word that can be read is that of a value, or stray. -/
theorem isOk_fields_iff (w : Word) : (∃ f, w.fields = .ok f) ↔ w.Stored ∨ w.IsStrayNull ∨ w.IsStrayNaN := by
  constructor
  · rintro ⟨f, known⟩
    obtain ⟨v, read, -⟩ := fields_eq_ok_iff.1 known
    rcases encode_of_decode? read with packed | ⟨stray, -⟩ | stray
    · exact .inl ⟨v.fields, v.encode_fields.trans packed⟩
    · exact .inr (.inl stray)
    · exact .inr (.inr stray)
  · rintro (stored | stray | stray)
    · exact stored.fields.imp fun f both => both.1
    · exact ⟨_, fields_eq_ok_iff.2 ⟨_, stray.decode?, rfl⟩⟩
    · obtain ⟨d, read, -⟩ := stray.1.decode?
      exact ⟨_, fields_eq_ok_iff.2 ⟨_, read, rfl⟩⟩

/-- Packing accepts the nine kinds with handles that fit, and unpacking gives back the normal form, so that
values with one word have one normal form. The words that unpacking accepts are those of values, the numbers
1 to 7, which are read as null, and doubles that hold a not-a-number other than the canonical one. -/
theorem encode_faithful (f g : Fields) (w : Word) :
    ((∃ packed, f.encode = .ok packed) ↔ f.Accepted) ∧
    (f.Accepted → f.encode.bind Word.fields = .ok f.normal) ∧
    (f.Accepted → g.Accepted → (f.encode = g.encode ↔ f.normal = g.normal)) ∧
    (ofDouble f.double).bits.toNat = f.double.canonical.bits.toNat + 2 ^ 48 ∧
    ((∃ d, w.fields = .ok d ∧ d.encode = .ok w) ↔ w.Stored) ∧
    ((∃ d, w.fields = .ok d) ∧ ¬ w.Stored ↔ w.IsStrayNull ∨ w.IsStrayNaN) ∧
    (w.IsStrayNull → w.fields = .ok (Fields.blank .null)) ∧
    (¬ w.Stored → ¬ w.IsStrayNull → ¬ w.IsStrayNaN → w.fields = .error (.malformed w)) := by
  refine ⟨f.encode_isOk_iff, ?_, Fields.same_word_iff, ofDouble_toNat f.double, ?_, ?_, ?_, ?_⟩
  · intro fitting
    obtain ⟨packed, word⟩ := f.encode_isOk_iff.2 fitting
    rw [word, Except.bind, f.fields_of_encode word]
  · exact ⟨fun ⟨d, _, packed⟩ => ⟨d, packed⟩, Stored.fields⟩
  · rw [isOk_fields_iff]
    exact ⟨fun ⟨read, missing⟩ => read.resolve_left missing,
      fun stray => ⟨.inr stray, fun stored => stored.not_stray stray⟩⟩
  · exact fun stray => fields_eq_ok_iff.2 ⟨_, stray.decode?, rfl⟩
  · intro missing null nan
    apply fields_eq_error
    cases read : w.decode? with
    | none => rfl
    | some v =>
      have found := (isOk_fields_iff w).1 ⟨_, fields_eq_ok_iff.2 ⟨v, read, rfl⟩⟩
      exact absurd found (by simp [missing, null, nan])

/-- Two not-a-numbers, one of them with every bit set and with fields of other kinds filled in, share a word;
seven is read as null; a bool that is neither false nor true is refused. -/
theorem encode_faithful_edges :
    let noisy : Fields := ⟨2, 7, ⟨0xFFFFFFFFFFFFFFFF⟩, true, 9⟩
    let other : Fields := ⟨2, 0, ⟨0x7FF0000000000001⟩, false, 0⟩
    let bad : Word := ⟨0xFFFF000100000002⟩
    noisy.Accepted ∧ other.Accepted ∧
      noisy.encode.bind Word.fields = .ok { Fields.blank .double with double := .canonicalNaN } ∧
      noisy.encode = other.encode ∧ (Word.mk 7).fields = .ok (Fields.blank .null) ∧
      ¬ bad.Stored ∧ bad.fields = .error (.malformed bad) := by
  intro noisy other bad
  have fitting : noisy.Accepted := ⟨.double, rfl, by simp [ValueKind.isReference]⟩
  have fits : other.Accepted := ⟨.double, rfl, by simp [ValueKind.isReference]⟩
  obtain ⟨-, reads, shares, -, -, -, seven, -⟩ := encode_faithful noisy other ⟨7⟩
  obtain ⟨-, -, -, -, -, -, -, refuses⟩ := encode_faithful noisy other bad
  have unread : ¬ ∃ f, bad.fields = .ok f := by
    rw [fields_eq_error (by decide)]
    simp
  obtain ⟨missing, null, nan⟩ : ¬ bad.Stored ∧ ¬ bad.IsStrayNull ∧ ¬ bad.IsStrayNaN := by
    simpa only [isOk_fields_iff, not_or] using unread
  have normal : noisy.normal = { Fields.blank .double with double := .canonicalNaN } := by decide
  exact ⟨fitting, fits, normal ▸ reads fitting, (shares fitting fits).2 (by decide), seven ⟨by decide, by decide⟩,
    missing, refuses missing null nan⟩

end Word

end Gradual
