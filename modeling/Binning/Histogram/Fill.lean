import Binning.Axis.Lookup
import Binning.Histogram.Basic
import Binning.Reduction

/-! Recording entries. An entry is placed on every axis before anything
changes; then the axes that have to grow are exchanged, the contents move, and
the entry is counted if its indices have a slot. -/
namespace Binning.Histogram

/-- What an operation leaves, whether it succeeds or not. -/
structure Outcome where
  state : Histogram
  result : Except Error Unit

/-- A failed operation leaves the histogram as it was. -/
def Outcome.ofExcept (h : Histogram) : Except Error Histogram → Outcome
  | .ok changed => ⟨changed, .ok ()⟩
  | .error e => ⟨h, .error e⟩

def locate (h : Histogram) (coords : List Coord) : Except IndexError (List Axis.Placement) := do
  if coords.length ≠ h.rank then throw (.coordinateCount coords.length h.rank)
  (h.bareAxes.zip coords).mapM fun (a, c) => a.locate c

/-- The axis and the route of its contents after an entry is placed. -/
def growAxis (r : Registry) (family : Family) (a : ClassedAxis) (p : Axis.Placement) :
    Except Error (ClassedAxis × Route) :=
  match p.grown with
  | some new => do
    return (← ClassedAxis.cast r (some family) new, Route.regrow a.axis new p.front)
  | none => return (a, Route.identity a.axis)

def grow (r : Registry) (h : Histogram) (placements : List Axis.Placement) :
    Except Error Histogram := do
  let grown ← (h.axes.zip placements).mapM fun (a, p) => growAxis r h.family a p
  let order := List.range h.rank
  let (_, bins) := Reduction.gather h.bins h.extents (grown.map (·.2)) order
  return { h with axes := grown.map (·.1), bins }

/-- The position of a placed entry. -/
def position? (h : Histogram) (placements : List Axis.Placement) : Option Nat :=
  (slots? h.bareAxes (placements.map (·.index))).map (Layout.position h.extents)

def record (r : Registry) (h : Histogram) (coords : List Coord)
    (weight sample : Option Float := none) : Except Error Histogram := do
  (h.storage.kind.checkEntry weight sample).mapError .capability
  let placements ← (h.locate coords).mapError .index
  let h ← if placements.any (·.grown.isSome) then h.grow r placements else pure h
  match h.position? placements with
  | some j => return { h with bins := h.bins.record j weight sample }
  | none => return h

def fill (r : Registry) (h : Histogram) (coords : List Coord)
    (weight sample : Option Float := none) : Outcome :=
  .ofExcept h (h.record r coords weight sample)

/-- Record entries until one fails; those before it stay. -/
def fillAll (r : Registry) (h : Histogram) : List (List Coord) → Outcome
  | [] => ⟨h, .ok ()⟩
  | coords :: rest =>
    match h.record r coords with
    | .ok changed => fillAll r changed rest
    | .error e => ⟨h, .error e⟩

def fillValues (r : Registry) (h : Histogram) (values : List Coord) : Outcome :=
  if h.rank ≠ 1 then ⟨h, .error (.index (.notOneDimensional h.rank))⟩
  else h.fillAll r (values.map ([·]))

/-- The histogram with one more entry from a writer that shares it with others.
No axis may grow. -/
def recordShared (h : Histogram) (coords : List Coord) : Except Error Histogram := do
  if let some a := h.axes.find? (·.axis.options.growth) then
    throw (.capability (.growingConcurrently a.render))
  if h.storage.kind ≠ .atomicInt then
    throw (.capability (.concurrentStorage h.storage.kind))
  let placements ← (h.locate coords).mapError .index
  match h.position? placements with
  | some j => do
    let bins ← (h.bins.recordShared j).mapError .capability
    return { h with bins }
  | none => return h

def fillShared (h : Histogram) (coords : List Coord) : Outcome :=
  .ofExcept h (h.recordShared coords)

def reset (h : Histogram) : Histogram := { h with bins := h.bins.reset }

def scale (h : Histogram) (factor : Float) : Outcome :=
  .ofExcept h do return { h with bins := ← (h.bins.scale factor).mapError .capability }

end Binning.Histogram
