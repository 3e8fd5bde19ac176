import Gradual.Value.Word

/-!
Words of references and of ints decode to what they were made from. A handle up to `maxRef` shifted by three
leaves the sixteen bits at the top clear and the three low bits to the kind of record; above an int all
sixteen are set.
-/
namespace Gradual.Word

@[simp] theorem decode?_undefined : undefined.decode? = some .undefined := by decide

@[simp] theorem decode?_null : null.decode? = some .null := by decide

/-- Undefined has one word. -/
theorem eq_undefined_of_decode? {w : Word} (known : w.decode? = some .undefined) : w = undefined := by
  obtain ⟨bits⟩ := w
  grind [decode?, decodeReference?, decodeImmediate?, undefined]

/-- The number a reference word stands for: handle and kind side by side. -/
theorem ofRef_toNat {tag : UInt64} {r : Nat} (small : tag.toNat < 8) (issued : r ≠ 0) (fits : r ≤ maxRef) :
    (ofRef tag r).bits.toNat = 8 * r + tag.toNat := by
  have bound : r < 35184372088832 := Nat.lt_succ_of_le fits
  have shifted : (UInt64.ofNat r <<< 3).toNat = r <<< 3 := by
    rw [UInt64.toNat_shiftLeft, UInt64.toNat_ofNat_of_lt' (by simp [UInt64.size]; omega)]
    simp only [UInt64.reduceToNat, Nat.shiftLeft_eq, Nat.reduceMod, Nat.reducePow]
    omega
  rw [ofRef, if_neg issued, UInt64.toNat_or, shifted,
    ← Nat.shiftLeft_add_eq_or_of_lt (i := 3) (by simpa using small), Nat.shiftLeft_eq]
  omega

theorem ofRef_decode? {tag : UInt64} {r : Nat} (small : tag.toNat < 8) (issued : r ≠ 0) (fits : r ≤ maxRef) :
    (ofRef tag r).decode? = if tag = 0 then some (.object r) else if tag = 2 then some (.box r)
      else if tag = 4 then some (.string r) else if tag = 6 then some (.closure r) else none := by
  have number := ofRef_toNat small issued fits
  have bound : r < 35184372088832 := Nat.lt_succ_of_le fits
  have top : (ofRef tag r).bits >>> 48 = 0 := by
    apply UInt64.toNat_inj.1
    rw [UInt64.toNat_shiftRight, number]
    simp only [UInt64.reduceToNat, Nat.shiftRight_eq_div_pow, Nat.reduceMod, Nat.reducePow]
    omega
  have handle : ((ofRef tag r).bits >>> 3).toNat = r := by
    rw [UInt64.toNat_shiftRight, number]
    simp only [UInt64.reduceToNat, Nat.shiftRight_eq_div_pow, Nat.reduceMod, Nat.reducePow]
    omega
  have low : (ofRef tag r).bits &&& 7 = tag := by
    apply UInt64.toNat_inj.1
    rw [UInt64.toNat_and, number]
    simp only [UInt64.reduceToNat]
    rw [show (7 : Nat) = 2 ^ 3 - 1 by decide, Nat.and_two_pow_sub_one_eq_mod]
    omega
  simp only [decode?, top, if_true, decodeReference?, handle, if_neg issued, low]

theorem objectRef_decode? {r : Nat} (issued : r ≠ 0) (fits : r ≤ maxRef) :
    (objectRef r).decode? = some (.object r) := ofRef_decode? (by decide) issued fits

theorem boxRef_decode? {r : Nat} (issued : r ≠ 0) (fits : r ≤ maxRef) :
    (boxRef r).decode? = some (.box r) := ofRef_decode? (by decide) issued fits

theorem stringRef_decode? {r : Nat} (issued : r ≠ 0) (fits : r ≤ maxRef) :
    (stringRef r).decode? = some (.string r) := ofRef_decode? (by decide) issued fits

theorem closureRef_decode? {r : Nat} (issued : r ≠ 0) (fits : r ≤ maxRef) :
    (closureRef r).decode? = some (.closure r) := ofRef_decode? (by decide) issued fits

/-- The number an int word stands for: a mark at the top and the int below. -/
theorem ofInt_toNat (n : Int32) : (ofInt n).bits.toNat = 0xFFFF000000000000 + n.toUInt32.toNat := by
  have small : n.toUInt32.toNat < 2 ^ 48 := Nat.lt_trans n.toUInt32.toNat_lt (by decide)
  rw [ofInt, UInt64.toNat_or, UInt32.toNat_toUInt64,
    show (0xFFFF000000000000 : UInt64).toNat = 0xFFFF <<< 48 by decide, ← Nat.shiftLeft_add_eq_or_of_lt small,
    Nat.shiftLeft_eq]

theorem ofInt_decode? (n : Int32) : (ofInt n).decode? = some (.int n) := by
  have number := ofInt_toNat n
  have bound : n.toUInt32.toNat < 2 ^ 32 := n.toUInt32.toNat_lt
  have top : (ofInt n).bits >>> 48 = 0xFFFF := by
    apply UInt64.toNat_inj.1
    rw [UInt64.toNat_shiftRight, number]
    simp only [UInt64.reduceToNat, Nat.shiftRight_eq_div_pow, Nat.reduceMod, Nat.reducePow]
    omega
  have mark : (ofInt n).bits >>> 32 = 0xFFFF0000 := by
    apply UInt64.toNat_inj.1
    rw [UInt64.toNat_shiftRight, number]
    simp only [UInt64.reduceToNat, Nat.shiftRight_eq_div_pow, Nat.reduceMod, Nat.reducePow]
    omega
  have low : (ofInt n).bits.toUInt32 = n.toUInt32 := by
    apply UInt32.toNat_inj.1
    rw [UInt64.toNat_toUInt32, number]
    omega
  simp [decode?, top, decodeImmediate?, mark, low]

end Gradual.Word
