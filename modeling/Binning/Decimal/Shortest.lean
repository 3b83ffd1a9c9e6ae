import Binning.Binary64

/-! The fewest decimal digits that read back to a binary64 number. The reals
that round to a number form an interval between the midpoints to its two
neighbours, ends included when the significand is even. On each decimal grid,
from one digit up, only the two grid points around the number are tried; the
first grid with a point in the interval wins. All arithmetic is exact. -/
namespace Binning.Decimal

/-- The decimal `digits * 10 ^ exponent`. -/
structure Numeral where
  digits : Nat
  exponent : Int
  deriving DecidableEq

/-- A number and the ends of its interval, over a common denominator. -/
structure Interval where
  lower : Nat
  value : Nat
  upper : Nat
  denominator : Nat
  closed : Bool

/-- The numbers that round to `significand * 2 ^ exponent`. The neighbour below
a power of two is half as far away as the one above. -/
def Interval.ofParts (p : Binary64.Parts) : Interval :=
  let scale := 1 <<< p.exponent.toNat
  let narrow := p.significand == 0x10000000000000 && decide (-1074 < p.exponent)
  { lower := (4 * p.significand - if narrow then 1 else 2) * scale
    value := 4 * p.significand * scale
    upper := (4 * p.significand + 2) * scale
    denominator := 4 <<< (-p.exponent).toNat
    closed := p.significand % 2 == 0 }

def digitCount (n : Nat) : Nat := (Nat.toDigits 10 n).length

/-- The power of ten of the leading digit. -/
def Interval.leading (i : Interval) : Int :=
  if i.denominator ≤ i.value then (digitCount (i.value / i.denominator) : Int) - 1
  else -(digitCount ((i.denominator - 1) / i.value) : Int)

/-- The grid point of unit `10 ^ unit` that lies in the interval, if there is
one: of two the nearer, and the upper one halfway between. -/
def Interval.onGrid? (i : Interval) (unit : Int) : Option Numeral :=
  let up := Nat.pow 10 (-unit).toNat
  let step := i.denominator * Nat.pow 10 unit.toNat
  let below := i.value * up / step
  let rest := i.value * up % step
  let admits (near far : Nat) : Bool := if i.closed then near ≤ far else near < far
  let low := admits (i.lower * up) (below * step)
  let high := admits ((below + 1) * step) (i.upper * up)
  if low && (!high || rest < step - rest) then some ⟨below, unit⟩
  else if high then some ⟨below + 1, unit⟩
  else none

/-- The shortest numeral of a positive number. Seventeen digits always read
back. -/
def shortest (p : Binary64.Parts) : Numeral :=
  let i := Interval.ofParts p
  let leading := i.leading
  ((List.range 17).findSome? fun (n : Nat) => i.onGrid? (leading - n)).getD ⟨0, 0⟩

end Binning.Decimal
