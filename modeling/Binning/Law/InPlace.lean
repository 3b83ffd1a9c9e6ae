import Binning.Law.Grid
import Binning.Law.IntegerRange

/-! Laws that grow in place, write by write. A failure takes nothing back, so a number that
cannot be reached has to be refused before the first write. -/
namespace Binning

namespace IntegerRange

/-- Operations on a range that is changed in place. -/
abbrev InPlace := EStateM IndexError IntegerRange

namespace InPlace

/-- The bins to be added on the way to `x`. -/
def added (x bins : Float) : InPlace Nat :=
  match addedBins bins with
  | .ok n => pure n
  | .error many => throw (.growthTooFar x many)

/-- Grow to include `x`; its bin and the bins added in front. -/
def grow (x : Float) : InPlace (Int × Nat) := do
  if !Binary64.isFinite x then throw (.outOfReach x)
  let r ← get
  let i := Binary64.floor x - Binary64.ofInt r.start
  let size := Binary64.ofNat r.size
  if i < 0 then
    let front ← added x (-i)
    if ¬ Word64.Signed (r.start - front) then throw (.outOfReach x)
    modify fun r => { r with start := r.start - front }
    modify fun r => { r with size := r.size + front }
    return (0, front)
  if size ≤ i then
    let behind ← added x (i - size + 1)
    if ¬ Word64.Signed (r.start + Word64.signed (r.size + behind)) then throw (.outOfReach x)
    modify fun r => { r with size := r.size + behind }
  return (Binary64.toSigned i, 0)

end InPlace
end IntegerRange

namespace Grid
variable {α : Type} [Scalar α]

/-- Operations on a grid that is changed in place. A failure tells the bins that would be
needed. -/
abbrev InPlace (α : Type) := EStateM α (Grid α)

namespace InPlace

def added (bins : α) : InPlace α Nat :=
  match addedBins bins with
  | .ok n => pure n
  | .error many => throw many

/-- Grow to include `u`; its bin and the bins added in front. -/
def grow (u : α) : InPlace α (Int × Nat) := do
  let g ← get
  let z := g.position u
  let width := g.width
  let size : α := Scalar.ofNat g.size
  if z < 1 then
    if 0 ≤ z then return (g.binAt z, 0)
    if Scalar.isFinite z then
      let front ← added (-Scalar.floor (z * size))
      let last := g.first + g.span
      modify fun g => { g with first := g.first - Scalar.ofNat front * width }
      modify fun g => { g with span := last - g.first }
      modify fun g => { g with size := g.size + front }
      return (0, front)
    return (-1, 0)
  if Scalar.isFinite z then
    let behind ← added (Scalar.floor (z * size) - size + 1)
    modify fun g => { g with size := g.size + behind }
    modify fun g => { g with span := width * Scalar.ofNat g.size }
    return (Word64.signed ((← get).size - 1), 0)
  return (Word64.signed g.size, 0)

end InPlace
end Grid
end Binning
