/-!
The shortest decimal that reads back as a given binary floating-point number.

A finite positive number is `m * 2^e`. The reals that round to it form an interval around it, whose
ends belong to it when `m` is even. For one digit, two digits and so on, the two neighbours of the
number on the decimal grid of that many digits are tested against the interval, in exact arithmetic;
the first grid with a hit wins, of two hits the nearer one, and of two equally near ones the even one.
-/
namespace Gradual.Decimal

/-- A finite nonzero number `mantissa * 2^exponent`. `narrowBelow` says that the next smaller number
is only half as far away as the next larger one. -/
structure Binary where
  mantissa : Nat
  exponent : Int
  narrowBelow : Bool

/-- `digits` holds the significant digits as one number; the decimal point stands `point` places
to the right of the position before the first digit. -/
structure Digits where
  digits : Nat
  point : Int
  deriving DecidableEq, Repr

/-- Four times the number as a fraction, with its interval on the same denominator. -/
structure Scaled where
  lower : Nat
  value : Nat
  upper : Nat
  denominator : Nat

def Binary.scaled (b : Binary) : Scaled :=
  let up := Nat.pow 2 b.exponent.toNat
  let down := Nat.pow 2 (-b.exponent).toNat
  let below := if b.narrowBelow then 1 else 2
  { lower := (4 * b.mantissa - below) * up
    value := 4 * b.mantissa * up
    upper := (4 * b.mantissa + 2) * up
    denominator := 4 * down }

/-- The number of decimal digits of a positive number; the first argument bounds the search. -/
def digitCount : Nat → Nat → Nat
  | 0, _ => 0
  | fuel + 1, n => if n = 0 then 0 else digitCount fuel (n / 10) + 1

/-- The number of zeros between the point and the first digit of `num / den < 1`. -/
def leadingZeros : Nat → Nat → Nat → Nat
  | 0, _, _ => 0
  | fuel + 1, num, den => if den ≤ 10 * num then 0 else leadingZeros fuel (10 * num) den + 1

/-- The position of the decimal point before the first significant digit. -/
def Scaled.point (s : Scaled) : Int :=
  let whole := s.value / s.denominator
  if whole = 0 then -(leadingZeros 400 s.value s.denominator : Int) else digitCount 400 whole

/-- `c` units of `10^unit`, as a numerator over the common denominator and a factor for the rest. -/
def Scaled.onGrid (s : Scaled) (unit : Int) (c : Nat) : Nat × Nat :=
  (c * Nat.pow 10 unit.toNat * s.denominator, Nat.pow 10 (-unit).toNat)

def Scaled.admits (s : Scaled) (closed : Bool) (unit : Int) (c : Nat) : Bool :=
  let (p, q) := s.onGrid unit c
  if closed then s.lower * q ≤ p && p ≤ s.upper * q
  else s.lower * q < p && p < s.upper * q

/-- Drops zeros at the end of a digit string; the point does not move. -/
def dropZeros : Nat → Nat → Nat
  | 0, n => n
  | fuel + 1, n => if n % 10 = 0 ∧ n ≠ 0 then dropZeros fuel (n / 10) else n

/-- Chooses between the two neighbours of the number on the grid of `10^unit`. -/
def Scaled.nearest? (s : Scaled) (closed : Bool) (unit : Int) : Option Nat :=
  let (p, q) := s.onGrid unit 1
  let low := s.value * q / p
  let rest := 2 * (s.value * q % p)
  let lowFits := low ≠ 0 && s.admits closed unit low
  let highFits := s.admits closed unit (low + 1)
  if lowFits && highFits then
    if rest < p ∨ (rest = p ∧ low % 2 = 0) then some low else some (low + 1)
  else if lowFits then some low
  else if highFits then some (low + 1)
  else none

/-- Tries grids of `count`, `count + 1`, ... digits. -/
def Scaled.search (s : Scaled) (closed : Bool) : Nat → Nat → Digits
  | 0, _ => ⟨0, 0⟩
  | fuel + 1, count =>
    let unit := s.point - count
    match s.nearest? closed unit with
    | none => s.search closed fuel (count + 1)
    | some c =>
      if c = Nat.pow 10 count then ⟨1, s.point + 1⟩ else ⟨dropZeros 20 c, s.point⟩

/-- Seventeen digits always suffice for a 53-bit mantissa. -/
def shortest (b : Binary) : Digits := b.scaled.search (b.mantissa % 2 = 0) 20 1

end Gradual.Decimal
