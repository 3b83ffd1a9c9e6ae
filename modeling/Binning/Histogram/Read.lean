import Binning.Axis.Geometry
import Binning.Histogram.Basic
import Binning.Reduction

/-! Reading contents: one bin, the total, and dense copies. -/
namespace Binning

/-- Row-major contents of a rectangular array. -/
structure Dense (α : Type) where
  shape : List Nat
  data : List α

def Dense.map {α β : Type} (f : α → β) (d : Dense α) : Dense β := ⟨d.shape, d.data.map f⟩

namespace Histogram

/-- The slots of one index per axis, or the first index without a slot. -/
def slotsAt : List ClassedAxis → List Int → Except IndexError (List Nat)
  | a :: axes, i :: indices => do
    if a.axis.representable i then
      let slots ← slotsAt axes indices
      return a.axis.slot i :: slots
    else throw (.binAddress i a.render)
  | _, _ => return []

/-- The content of the bin at one index per axis, from -1 to the size. -/
def contentAt (h : Histogram) (indices : List Int) : Except IndexError Cell := do
  if indices.length ≠ h.rank then throw (.entryCount indices.length h.rank)
  let slots ← slotsAt h.axes indices
  return h.bins.get (Layout.position h.extents slots)

/-- The total of the bins in range, with the flow bins on request. -/
def sum (h : Histogram) (flow : Bool) : Cell :=
  let routes := h.bareAxes.map fun a => Route.sum a 0 a.size flow flow
  (Reduction.gather h.bins h.extents routes []).2.get 0

/-- A dense copy of the contents, without the flow bins unless requested. -/
def view (h : Histogram) (flow : Bool) : Except Error (Dense Cell) :=
  if h.bins.length ≠ Layout.volume h.extents then throw (.index .layoutMismatch)
  else if flow then return ⟨h.extents, h.bins.cells⟩
  else
    let sizes := h.bareAxes.map Axis.size
    let first := h.bareAxes.map (·.options.underflow.toNat)
    return ⟨sizes, (Layout.tuples sizes).map fun slots =>
      h.bins.get (Layout.position h.extents (List.zipWith (· + ·) first slots))⟩

def values (h : Histogram) (flow : Bool) : Except Error (Dense Float) :=
  Dense.map Cell.value <$> h.view flow

def variances (h : Histogram) (flow : Bool) : Except Error (Dense Float) :=
  Dense.map Cell.variance <$> h.view flow

def dense (h : Histogram) (flow : Bool) : Except Error (Dense Float × List (List Float)) := do
  return (← h.values flow, h.bareAxes.map (·.denseEdges flow))

/-- The axes, the storage and, where it is one number, the total. -/
def render (h : Histogram) : String :=
  let total := h.sum true
  let comment := match total with
    | .count _ | .real _ => " # Sum: " ++ total.render
    | _ => ""
  "Histogram(\n" ++ String.join (h.axes.map fun a => "  " ++ a.render ++ ",\n") ++
    "  storage=" ++ h.storage.render ++ ")" ++ comment

end Histogram
end Binning
