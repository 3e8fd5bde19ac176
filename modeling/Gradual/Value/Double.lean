import Gradual.Decimal.Shortest

/-! Double-precision numbers, held as their 64 bits. Nothing here computes with them: they are
stored, compared bit by bit and printed. -/
namespace Gradual

structure Double where
  bits : UInt64
  deriving DecidableEq, Repr

namespace Double

def negative (d : Double) : Bool := d.bits.toNat / 0x8000000000000000 = 1

/-- The eleven exponent bits, still with their offset. -/
def biased (d : Double) : Nat := d.bits.toNat / 0x10000000000000 % 0x800

def fraction (d : Double) : Nat := d.bits.toNat % 0x10000000000000

def isNaN (d : Double) : Bool := d.biased = 2047 && d.fraction ≠ 0

/-- The one not-a-number that words hold. -/
def canonicalNaN : Double := ⟨0x7FF8000000000000⟩

def canonical (d : Double) : Double := if d.isNaN then canonicalNaN else d

/-- A finite nonzero number without its sign. -/
def magnitude (d : Double) : Decimal.Binary :=
  if d.biased = 0 then ⟨d.fraction, -1074, false⟩
  else ⟨0x10000000000000 + d.fraction, (d.biased : Int) - 1075, d.fraction = 0 && d.biased ≠ 1⟩

/-- Positional notation is used while the exponent of the first digit lies in this range; outside of
it the digits are written with an exponent of at least two digits. -/
def positional (exponent : Int) : Bool := -4 ≤ exponent && exponent < 6

def exponentText (exponent : Int) : String :=
  let size := exponent.natAbs
  (if exponent < 0 then "e-" else "e+") ++ (if size < 10 then "0" else "") ++ toString size

/-- Inserts a decimal point after the first `whole` digits, unless nothing follows it. -/
def withPoint (digits : List Char) (whole : Nat) : List Char :=
  let tail := digits.drop whole
  digits.take whole ++ if tail.isEmpty then [] else '.' :: tail

def positionalText (digits : List Char) (point : Int) : String :=
  let whole := point.toNat
  String.ofList <|
    if point ≤ 0 then '0' :: '.' :: List.replicate (-point).toNat '0' ++ digits
    else withPoint (digits ++ List.replicate (whole - digits.length) '0') whole

def digitsText (d : Decimal.Digits) : String :=
  let digits := Nat.toDigits 10 d.digits
  let exponent := d.point - 1
  if positional exponent then positionalText digits d.point
  else String.ofList (withPoint digits 1) ++ exponentText exponent

def text (d : Double) : String :=
  if d.isNaN then "NaN"
  else if d.biased = 2047 then (if d.negative then "-Inf" else "+Inf")
  else
    (if d.negative then "-" else "") ++
      if d.biased = 0 && d.fraction = 0 then "0" else digitsText (Decimal.shortest d.magnitude)

end Double

end Gradual
