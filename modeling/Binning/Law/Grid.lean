import Binning.Scalar

/-! Bins of equal width between two ends. The grid is descending when its span
is negative. Every definition is read over any scalar: over `Float` it is what
runs, over the rationals it is exact. -/
namespace Binning

/-- The most bins that one entry may add to a growing axis. -/
def growthLimit : Nat := 0x1000000

/-- A whole number of bins to be added, or the number itself when it is above
the limit. -/
def addedBins {α : Type} [Scalar α] (bins : α) : Except α Nat :=
  if Scalar.ofNat growthLimit < bins then throw bins else return (Scalar.toSigned bins).toNat

structure Grid (α : Type) where
  size : Nat
  first : α
  /-- The last edge less the first. -/
  span : α
  deriving BEq

namespace Grid
variable {α : Type} [Scalar α] (g : Grid α)

/-- The position of `u` between the ends: 0 at the first, 1 at the last. -/
def position (u : α) : α := (u - g.first) / g.span

def width : α := g.span / Scalar.ofNat g.size

/-- The bin of a position in `[0, 1)`. -/
def binAt (z : α) : Int :=
  min (Scalar.toSigned (z * Scalar.ofNat g.size)) (Word64.signed (g.size - 1))

/-- The bin of `u`: -1 before the first edge, the size from the last edge on
and for what has no position. -/
def index (u : α) : Int :=
  let z := g.position u
  if z < 1 then
    if 0 ≤ z then g.binAt z else -1
  else Word64.signed g.size

/-- The bin of `u` when the grid repeats; the size for what has no finite
position. -/
def indexCircular (u : α) : Int :=
  let z := g.position u
  if Scalar.isFinite z then g.binAt (z - Scalar.floor z) else Word64.signed g.size

/-- The edge at the fraction `z` of the span, weighing both ends. -/
def between (z : α) : α := (1 - z) * g.first + z * (g.first + g.span)

/-- The edge at the fraction `z` of the span, going from the first end. -/
def along (z : α) : α := g.first + z * g.span

def edge (k : Nat) : α := g.between (Scalar.ofNat k / Scalar.ofNat g.size)

/-- Where a growing grid puts an entry: its bin, the bins added in front, and
the grid that has it. -/
structure Reach (α : Type) where
  index : Int
  front : Nat
  grid : Grid α

/-- Extend the grid by whole bins of the same width to include `u`. What has no
finite position is sent to the flow bins. The error is the number of bins that
would be needed. -/
def reach (u : α) : Except α (Reach α) :=
  let z := g.position u
  let size : α := Scalar.ofNat g.size
  if z < 1 then
    if 0 ≤ z then return ⟨g.binAt z, 0, g⟩
    else if Scalar.isFinite z then do
      let added ← addedBins (-Scalar.floor (z * size))
      let last := g.first + g.span
      let first := g.first - Scalar.ofNat added * g.width
      return ⟨0, added, ⟨g.size + added, first, last - first⟩⟩
    else return ⟨-1, 0, g⟩
  else if Scalar.isFinite z then do
    let added ← addedBins (Scalar.floor (z * size) - size + 1)
    let total := g.size + added
    return ⟨Word64.signed (total - 1), 0, ⟨total, g.first, g.width * Scalar.ofNat total⟩⟩
  else return ⟨Word64.signed g.size, 0, g⟩

/-- Bins `[lo, hi)` in groups of `merge`, which divides their number. An end
that is not cut keeps its edge as it is. -/
def slice (lo hi merge : Nat) : Grid α :=
  if lo = 0 ∧ hi = g.size then { g with size := g.size / merge }
  else
    let first := if lo = 0 then g.first else g.edge lo
    let last := if hi = g.size then g.first + g.span else g.edge hi
    ⟨(hi - lo) / merge, first, last - first⟩

end Grid
end Binning
