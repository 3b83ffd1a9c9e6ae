import Binning.Error
import Binning.Law.Grid

/-! Even bins in the space of a transform. -/
namespace Binning

structure Regular where
  /-- The bins, in the space of the transform. -/
  grid : Grid Float
  transform : Transform
  deriving BEq

namespace Regular

variable [Elementary]

def new (bins : Nat) (start stop : Float) (transform : Transform) :
    Except ConfigError Regular := do
  if bins = 0 then throw .noBins
  if let .pow p := transform then
    if p == 0 || !Binary64.isFinite p then throw (.power p)
  let first := transform.forward start
  let last := transform.forward stop
  if !Binary64.isFinite first || !Binary64.isFinite last then
    throw (.unboundedRange start stop transform)
  let span := last - first
  if span == 0 then throw .emptyRange
  return ⟨⟨bins, first, span⟩, transform⟩

variable (r : Regular)

def size : Nat := r.grid.size

def index (x : Float) : Int := r.grid.index (r.transform.forward x)

def indexCircular (x : Float) : Int := r.grid.indexCircular (r.transform.forward x)

/-- The edge at fractional bin `i` in the space of the transform; infinite on
the side of the grid that `i` lies beyond. -/
def innerValue (i : Float) : Float :=
  let z := i / Binary64.ofNat r.size
  if z < 0 then -Binary64.infinity * r.grid.span
  else if 1 < z then Binary64.infinity * r.grid.span
  else r.grid.between z

def value (i : Float) : Float := r.transform.inverse (r.innerValue i)

/-- The coordinate at fractional bin `i` of a circular axis, without bound. -/
def valueCircular (i : Float) : Float :=
  r.transform.inverse (r.grid.along (i / Binary64.ofNat r.size))

/-- Grow to include `x`; the bin of `x` and the bins added in front. -/
def grow (x : Float) : Except IndexError (Int × Nat × Regular) :=
  match r.grid.reach (r.transform.forward x) with
  | .ok reached => return (reached.index, reached.front, { r with grid := reached.grid })
  | .error bins => throw (.growthTooFar x bins)

def slice (lo hi merge : Nat) : Regular := { r with grid := r.grid.slice lo hi merge }

end Regular
end Binning
