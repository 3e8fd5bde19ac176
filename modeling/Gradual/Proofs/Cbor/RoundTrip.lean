import Gradual.Cbor.Reading
import Mathlib.Algebra.Order.Ring.Nat
import Mathlib.Tactic.IntervalCases
import Mathlib.Tactic.Ring

/-!
What is written in CBOR reads back. An item is legible at a level if its numbers take at most eight
bytes, its lists are no wider and it is nested no deeper than a reader goes. Reading the bytes of a
legible item gives the item and leaves what follows.
-/
namespace Gradual

namespace Bytes

theorem takeNumber_bigEndian (n value before : Nat) (rest : Bytes) :
    takeNumber n before (bigEndian n value ++ rest) = some (before * 256 ^ n + value % 256 ^ n, rest) := by
  induction n generalizing before with
  | zero => simp [takeNumber, bigEndian, Nat.mod_one]
  | succ n ih =>
    have byte : (UInt8.ofNat (value / Nat.pow 256 n)).toNat = value / 256 ^ n % 256 := UInt8.toNat_ofNat'
    rw [bigEndian, List.cons_append, takeNumber, ih, byte, Nat.mod_pow_succ]
    congr 2
    ring

theorem takeExactly_append (taken rest : Bytes) : takeExactly taken.length (taken ++ rest) = some (taken, rest) := by
  induction taken with
  | nil => rfl
  | cons b taken ih => simp [takeExactly, ih]

theorem toList_loop (bs : ByteArray) (i : Nat) (before : List UInt8) :
    ByteArray.toList.loop bs i before = before.reverse ++ bs.data.toList.drop i := by
  fun_induction ByteArray.toList.loop bs i before with
  | case1 i before inside ih =>
    have here : i < bs.data.toList.length := inside
    rw [ih, List.drop_eq_getElem_cons here]
    simp [ByteArray.get!, inside]
  | case2 i before outside =>
    have past : bs.data.toList.length ≤ i := Nat.le_of_not_lt outside
    rw [List.drop_eq_nil_of_le past]
    simp

theorem ofString_eq (s : String) : ofString s = s.toUTF8.data.toList := by
  simp [ofString, ByteArray.toList, toList_loop]

theorem toString?_ofString (s : String) : toString? (ofString s) = some s := by
  have valid : s.toUTF8.IsValidUTF8 := s.isValidUTF8
  rw [toString?, ofString_eq, Array.toArray_toList, String.fromUTF8?, dif_pos valid]
  rfl

end Bytes

namespace Cbor

def Head.infoOf (arg : Nat) : Nat :=
  if arg < 24 then arg
  else if arg < 256 then 24
  else if arg < 65536 then 25
  else if arg < 4294967296 then 26
  else 27

theorem Head.infoOf_ne (arg : Nat) : Head.infoOf arg ≠ 31 := by
  unfold Head.infoOf
  split_ifs <;> omega

theorem Head.bytes_pos (major arg : Nat) : 0 < (Head.bytes major arg).length := by
  unfold Head.bytes
  split_ifs <;> simp

theorem Head.parse_bytes {major arg : Nat} (kind : major < 8) (fits : arg < 256 ^ 8) (rest : Bytes) :
    Head.parse (Head.bytes major arg ++ rest) = some (⟨major, Head.infoOf arg, arg⟩, rest) := by
  have first (info : Nat) (small : info < 32) :
      (UInt8.ofNat (major * 32 + info)).toNat / 32 = major ∧ (UInt8.ofNat (major * 32 + info)).toNat % 32 = info := by
    rw [UInt8.toNat_ofNat', Nat.mod_eq_of_lt (by omega)]
    omega
  have wide {n : Nat} (within : arg < 256 ^ n) :
      Bytes.takeNumber n 0 (Bytes.bigEndian n arg ++ rest) = some (arg, rest) := by
    simp [Bytes.takeNumber_bigEndian, Nat.mod_eq_of_lt within]
  unfold Head.bytes Head.infoOf
  split_ifs with tiny byte two four
  · obtain ⟨high, low⟩ := first arg (by omega)
    simp only [List.singleton_append, Head.parse, high, low]
    split <;> first | omega | rfl
  · obtain ⟨high, low⟩ := first 24 (by omega)
    simp only [List.cons_append, Head.parse, high, low, wide (n := 1) (by omega)]
    rfl
  · obtain ⟨high, low⟩ := first 25 (by omega)
    simp only [List.cons_append, Head.parse, high, low, wide (n := 2) (by omega)]
    rfl
  · obtain ⟨high, low⟩ := first 26 (by omega)
    simp only [List.cons_append, Head.parse, high, low, wide (n := 4) (by omega)]
    rfl
  · obtain ⟨high, low⟩ := first 27 (by omega)
    simp only [List.cons_append, Head.parse, high, low, wide (n := 8) fits]
    rfl

namespace Item

inductive Legible : Nat → Item → Prop where
  | uint (fits : n < 256 ^ 8) : Legible level (.uint n)
  | negative (fits : n < 256 ^ 8) : Legible level (.negative n)
  | text (fits : data.length < 256 ^ 8) : Legible level (.text [data])
  | array (deep : level < maxLevels) (wide : items.length ≤ maxItems)
      (each : ∀ item ∈ items, Legible (level + 1) item) : Legible level (.array items)
  | map (deep : level < maxLevels) (wide : pairs.length ≤ maxItems)
      (keys : ∀ pair ∈ pairs, Legible (level + 1) pair.1)
      (values : ∀ pair ∈ pairs, Legible (level + 1) pair.2) : Legible level (.map pairs)
  | simple (small : n < 24) : Legible level (.simple n)

theorem encodePairs_eq (pairs : List (Item × Item)) :
    encodePairs pairs = encodeItems (pairs.flatMap fun pair => [pair.1, pair.2]) := by
  induction pairs with
  | nil => rfl
  | cons pair pairs ih => simp [encodePairs, encodeItems, ih]

theorem pairUp_flatMap (pairs : List (Item × Item)) :
    pairUp (pairs.flatMap fun pair => [pair.1, pair.2]) = some pairs := by
  induction pairs with
  | nil => rfl
  | cons pair pairs ih => simp [pairUp, ih]

theorem forall_mem_pairs {P : Item → Prop} {pairs : List (Item × Item)} (keys : ∀ pair ∈ pairs, P pair.1)
    (values : ∀ pair ∈ pairs, P pair.2) : ∀ item ∈ pairs.flatMap fun pair => [pair.1, pair.2], P item := by
  simp only [List.mem_flatMap, List.mem_cons, List.not_mem_nil, or_false]
  rintro item ⟨pair, inside, rfl | rfl⟩
  · exact keys pair inside
  · exact values pair inside

theorem length_pairs (pairs : List (Item × Item)) :
    (pairs.flatMap fun pair => [pair.1, pair.2]).length = 2 * pairs.length := by
  simp [List.length_flatMap, List.map_const', Nat.mul_comm]

/-- Reading an item takes at most two steps for each of its bytes. -/
def Reads (level : Nat) (item : Item) : Prop :=
  ∀ fuel tagged rest, 2 * item.encode.length ≤ fuel + 2 →
    parseItem (fuel + 1) level tagged (item.encode ++ rest) = some (item, rest)

theorem parseItems_encodeItems {level : Nat} {items : List Item} (each : ∀ item ∈ items, Reads level item)
    (taken : ∀ item ∈ items, 0 < item.encode.length) (fuel : Nat) (enough : 2 * (encodeItems items).length ≤ fuel)
    (rest : Bytes) : parseItems fuel level items.length (encodeItems items ++ rest) = some (items, rest) := by
  induction items generalizing fuel with
  | nil => simp [parseItems, encodeItems]
  | cons item items ih =>
    have pos := taken item List.mem_cons_self
    simp only [encodeItems, List.length_append] at enough
    obtain ⟨fuel, rfl⟩ : ∃ n, fuel = n + 2 := ⟨fuel - 2, by omega⟩
    have head := each item List.mem_cons_self fuel false (encodeItems items ++ rest) (by omega)
    have tail := ih (fun i hi => each i (List.mem_cons_of_mem _ hi)) (fun i hi => taken i (List.mem_cons_of_mem _ hi))
      (fuel + 1) (by omega)
    simp [encodeItems, parseItems, head, tail]

theorem Legible.encode_pos {level : Nat} {item : Item} (legible : Legible level item) : 0 < item.encode.length := by
  cases legible <;> simp [encode, encodeText, Head.bytes_pos]

theorem Legible.reads {level : Nat} {item : Item} (legible : Legible level item) : Reads level item := by
  have wide {n : Nat} (within : n ≤ maxItems) : n < 256 ^ 8 :=
    Nat.lt_of_le_of_lt within (by decide)
  induction legible with
  | uint fits =>
    intro fuel tagged rest enough
    simp [encode, parseItem, Head.parse_bytes (by decide : 0 < 8) fits, Head.infoOf_ne]
  | negative fits =>
    intro fuel tagged rest enough
    simp [encode, parseItem, Head.parse_bytes (by decide : 1 < 8) fits, Head.infoOf_ne]
  | text fits =>
    intro fuel tagged rest enough
    simp [encode, encodeText, parseItem, Head.parse_bytes (by decide : 3 < 8) fits, Head.infoOf_ne,
      Bytes.takeExactly_append]
  | @array level items deep bounded each ih =>
    intro fuel tagged rest enough
    have head := Head.bytes_pos 4 items.length
    simp only [encode, List.length_append] at enough
    have inner := parseItems_encodeItems ih (fun item inside => (each item inside).encode_pos) fuel (by omega) rest
    simp [encode, parseItem, Head.parse_bytes (by decide : 4 < 8) (wide bounded), Head.infoOf_ne, inner,
      Nat.not_le.2 deep, Nat.not_lt.2 bounded]
  | @map level pairs deep bounded keys values ihk ihv =>
    intro fuel tagged rest enough
    have head := Head.bytes_pos 5 pairs.length
    simp only [encode, List.length_append, encodePairs_eq] at enough
    -- keys and values are read as one list of twice the length
    have inner := parseItems_encodeItems (forall_mem_pairs ihk ihv) (forall_mem_pairs
      (fun pair inside => (keys pair inside).encode_pos) fun pair inside => (values pair inside).encode_pos)
      fuel (by omega) rest
    rw [length_pairs] at inner
    simp [encode, parseItem, Head.parse_bytes (by decide : 5 < 8) (wide bounded), Head.infoOf_ne, encodePairs_eq,
      inner, pairUp_flatMap, Nat.not_le.2 deep, Nat.not_lt.2 bounded]
  | @simple n level small =>
    intro fuel tagged rest enough
    have info : Head.infoOf n = n := if_pos small
    simp only [encode, parseItem, Head.parse_bytes (by decide : 7 < 8) (Nat.lt_of_lt_of_le small (by decide)), info]
    clear info enough
    interval_cases n <;> rfl

/-- A legible item reads back. -/
theorem Legible.parse? {item : Item} (legible : Legible 0 item) : Item.parse? item.encode = some item := by
  have read := legible.reads (2 * item.encode.length + 1) false [] (by omega)
  rw [List.append_nil] at read
  simp [Item.parse?, read]

end Item

end Cbor

end Gradual
