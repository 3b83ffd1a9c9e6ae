import Binning.Histogram.Fill

/-! Changing a histogram in place, write by write. A failure ends an operation
and takes nothing back, so whatever is refused has to be refused before the
first write. -/
namespace Binning.Histogram

/-- Operations on a histogram that is changed in place. -/
abbrev InPlace := EStateM Error Histogram

/-- What is left in place by an operation. -/
def Outcome.toResult : Outcome → EStateM.Result Error Histogram Unit
  | ⟨state, .ok _⟩ => .ok () state
  | ⟨state, .error e⟩ => .error e state

namespace InPlace

/-- A step that reads only. -/
def check {ε α : Type} (kind : ε → Error) : Except ε α → InPlace α
  | .ok a => pure a
  | .error e => throw (kind e)

def writeAxes (axes : List ClassedAxis) : InPlace Unit := modify fun h => { h with axes }

def writeBins (bins : Bins) : InPlace Unit := modify fun h => { h with bins }

/-- Exchange the axes that have to grow and move the contents. -/
def grow (r : Registry) (placements : List Axis.Placement) : InPlace Unit := do
  let h ← get
  let grown ← check id ((h.axes.zip placements).mapM fun (a, p) => growAxis r h.family a p)
  let order := List.range h.rank
  let (_, bins) := Reduction.gather h.bins h.extents (grown.map (·.2)) order
  writeAxes (grown.map (·.1))
  writeBins bins

def fill (r : Registry) (coords : List Coord) (weight sample : Option Float := none) :
    InPlace Unit := do
  let h ← get
  check .capability (h.storage.kind.checkEntry weight sample)
  let placements ← check .index (h.locate coords)
  if placements.any (·.grown.isSome) then grow r placements
  let h ← get
  if let some j := h.position? placements then writeBins (h.bins.record j weight sample)

def fillAll (r : Registry) (samples : List (List Coord)) : InPlace Unit :=
  samples.forM fun coords => fill r coords

def fillValues (r : Registry) (values : List Coord) : InPlace Unit := do
  let h ← get
  if h.rank ≠ 1 then throw (.index (.notOneDimensional h.rank))
  fillAll r (values.map ([·]))

def fillShared (coords : List Coord) : InPlace Unit := do
  let h ← get
  if let some a := h.axes.find? (·.axis.options.growth) then
    throw (.capability (.growingConcurrently a.render))
  if h.storage.kind ≠ .atomicInt then
    throw (.capability (.concurrentStorage h.storage.kind))
  let placements ← check .index (h.locate coords)
  if let some j := h.position? placements then
    writeBins (← check .capability (h.bins.recordShared j))

def scale (factor : Float) : InPlace Unit := do
  let h ← get
  writeBins (← check .capability (h.bins.scale factor))

end InPlace
end Binning.Histogram
