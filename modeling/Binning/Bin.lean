import Binning.Coord
import Binning.Scalar

/-! Bins as a reader sees them. -/
namespace Binning

/-- Half open at the upper end; a descending interval is closed at its first
edge, which is the greater one. -/
structure Interval (α : Type) where
  lower : α
  upper : α
  deriving BEq

namespace Interval

def center (i : Interval Float) : Float := 0.5 * (i.lower + i.upper)

def width (i : Interval Float) : Float := i.upper - i.lower

def contains {α : Type} [Scalar α] (i : Interval α) (x : α) : Bool :=
  if i.lower ≤ i.upper then i.lower ≤ x && x < i.upper else i.upper < x && x ≤ i.lower

end Interval

inductive Bin where
  | interval (bounds : Interval Float)
  | category (label : Coord)
  deriving BEq

end Binning
