import Binning.Error
import Binning.Law.Grid

/-! Bins of width one over a contiguous range of integers. -/
namespace Binning

/-- Bin `k` is `[start + k, start + k + 1)`. -/
structure IntegerRange where
  start : Int
  size : Nat
  deriving DecidableEq

namespace IntegerRange

def new (start stop : Int) : Except ConfigError IntegerRange := do
  if stop ≤ start then throw (.integerOrder start stop)
  if ¬ Word64.Signed (stop - start) then throw (.integerWidth start stop)
  return ⟨start, (stop - start).toNat⟩

variable (r : IntegerRange)

def stop : Int := Word64.wrapSigned (r.start + r.size)

/-- The bin of an integer: -1 below the range, the size above it. -/
def indexInt (x : Int) : Int :=
  max (-1) (min (Word64.signed r.size) (Word64.clampSigned (x - r.start)))

/-- The bin of a number, by its floor; the size for NaN. -/
def index (x : Float) : Int :=
  if x.isNaN then Word64.signed r.size
  else
    let z := Binary64.floor x - Binary64.ofInt r.start
    if z < 0 then -1
    else if Binary64.ofNat r.size ≤ z then Word64.signed r.size
    else Binary64.toSigned z

/-- The coordinate at fractional bin `i`; infinite beyond the ends. -/
def value (i : Float) : Float :=
  if i < 0 then -Binary64.infinity
  else if Binary64.ofNat r.size < i then Binary64.infinity
  else Binary64.ofInt r.start + i

/-- Grow by whole integers to include `x`; its bin and the bins added in
front. -/
def grow (x : Float) : Except IndexError (Int × Nat × IntegerRange) := do
  let added (bins : Float) : Except IndexError Nat :=
    (addedBins bins).mapError (.growthTooFar x)
  if !Binary64.isFinite x then throw (.outOfReach x)
  let i := Binary64.floor x - Binary64.ofInt r.start
  let size := Binary64.ofNat r.size
  if i < 0 then
    let front ← added (-i)
    if ¬ Word64.Signed (r.start - front) then throw (.outOfReach x)
    return (0, front, ⟨r.start - front, r.size + front⟩)
  else if size ≤ i then
    let behind ← added (i - size + 1)
    if ¬ Word64.Signed (r.start + Word64.signed (r.size + behind)) then throw (.outOfReach x)
    return (Binary64.toSigned i, 0, ⟨r.start, r.size + behind⟩)
  else return (Binary64.toSigned i, 0, r)

/-- The range of bins `[lo, hi)`. -/
def slice (lo hi : Nat) : IntegerRange :=
  ⟨Word64.wrapSigned (r.start + Word64.signed lo), hi - lo⟩

end IntegerRange
end Binning
