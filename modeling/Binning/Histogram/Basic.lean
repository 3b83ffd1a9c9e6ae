import Binning.ClassedAxis
import Binning.Layout
import Binning.Storage.Basic
import Binning.Storage.Bins

/-! A histogram: axes, a storage and the contents of the bins, laid out over
the axis extents. Axes and storage are cast in one family. -/
namespace Binning

structure Histogram where
  axes : List ClassedAxis
  storage : Storage
  bins : Bins
  family : Family

namespace Histogram

def new (r : Registry) (axes : List ClassedAxis) (kind : StorageKind)
    (family : Family := .main) : Except Error Histogram := do
  if axes.isEmpty then throw (.config .noAxes)
  let axes ← axes.mapM (·.inFamily r family)
  let storage ← Storage.inFamily r family kind
  return ⟨axes, storage, Bins.empty kind (Layout.volume (axes.map (·.axis.extent))), family⟩

def ofParts (r : Registry) (axes : List Axis) (bins : Bins) (family : Family) :
    Except Error Histogram := do
  let axes ← axes.mapM (ClassedAxis.cast r (some family))
  let storage ← Storage.inFamily r family bins.kind
  return ⟨axes, storage, bins, family⟩

variable (h : Histogram)

def rank : Nat := h.axes.length

def size : Nat := h.bins.length

def bareAxes : List Axis := h.axes.map ClassedAxis.axis

def extents : List Nat := h.bareAxes.map Axis.extent

def axis (i : Nat) : Except Error ClassedAxis :=
  match h.axes[i]? with
  | some a => return a
  | none => throw (.index (.axisRange i h.rank))

def slots? (axes : List Axis) (indices : List Int) : Option (List Nat) :=
  (axes.zip indices).mapM fun (a, i) => a.slot? i

def equal (h other : Histogram) : Bool :=
  h.axes == other.axes && h.storage == other.storage && h.bins == other.bins

instance : BEq Histogram := ⟨equal⟩

end Histogram
end Binning
