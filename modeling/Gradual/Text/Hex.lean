/-! Hexadecimal text. Digits are written in lower case and read in either case; a byte is always
two digits and a word always sixteen, so reading back needs no separators. -/
namespace Gradual.Text

def hexDigit (n : Nat) : Char :=
  if n < 10 then Char.ofNat (48 + n) else Char.ofNat (87 + n)

/-- The last `width` hexadecimal digits of `n`, most significant first. -/
def hexDigits : Nat → Nat → List Char
  | 0, _ => []
  | width + 1, n => hexDigits width (n / 16) ++ [hexDigit (n % 16)]

def hexPadded (width n : Nat) : String := String.ofList (hexDigits width n)

def hexWord (w : UInt64) : String := hexPadded 16 w.toNat

def hexBytes (bytes : List UInt8) : String :=
  String.ofList (bytes.flatMap fun b => hexDigits 2 b.toNat)

def hexDigitValue? (c : Char) : Option Nat :=
  if '0' ≤ c ∧ c ≤ '9' then some (c.toNat - 48)
  else if 'a' ≤ c ∧ c ≤ 'f' then some (c.toNat - 87)
  else if 'A' ≤ c ∧ c ≤ 'F' then some (c.toNat - 55)
  else none

/-- Reads the digits on top of the value `acc` of those before them. -/
def hexValueFrom? (acc : Nat) : List Char → Option Nat
  | [] => some acc
  | c :: rest => do
    let d ← hexDigitValue? c
    hexValueFrom? (16 * acc + d) rest

def hexValue? (digits : List Char) : Option Nat := hexValueFrom? 0 digits

def bytesOfHexDigits? : List Char → Option (List UInt8)
  | [] => some []
  | [_] => none
  | hi :: lo :: rest => do
    let h ← hexDigitValue? hi
    let l ← hexDigitValue? lo
    let bytes ← bytesOfHexDigits? rest
    return UInt8.ofNat (16 * h + l) :: bytes

def bytesOfHex? (text : String) : Option (List UInt8) := bytesOfHexDigits? text.toList

end Gradual.Text
