/-! Byte strings: numbers in big-endian order, and texts in UTF-8. -/
namespace Gradual

abbrev Bytes := List UInt8

namespace Bytes

/-- The low `n` bytes of a number, most significant first. -/
def bigEndian : Nat → Nat → Bytes
  | 0, _ => []
  | n + 1, value => UInt8.ofNat (value / Nat.pow 256 n) :: bigEndian n value

/-- Reads `n` bytes as a number, most significant first, on top of the value of those before. -/
def takeNumber : Nat → Nat → Bytes → Option (Nat × Bytes)
  | 0, value, rest => some (value, rest)
  | _ + 1, _, [] => none
  | n + 1, value, b :: rest => takeNumber n (value * 256 + b.toNat) rest

/-- Splits off exactly `n` bytes. -/
def takeExactly : Nat → Bytes → Option (Bytes × Bytes)
  | 0, rest => some ([], rest)
  | _ + 1, [] => none
  | n + 1, b :: rest => do
    let (taken, rest) ← takeExactly n rest
    return (b :: taken, rest)

def ofString (s : String) : Bytes := s.toUTF8.toList

def toString? (bs : Bytes) : Option String := String.fromUTF8? ⟨bs.toArray⟩

end Bytes

end Gradual
