import Binning.Histogram.Basic
import Binning.Index

/-! Reshaping: index expressions, projections and sums of histograms. -/
namespace Binning

/-- What an index expression gives: one cell if no axis is left. -/
inductive Selection where
  | value (cell : Cell)
  | histogram (h : Histogram)

namespace Histogram

def reduce (r : Registry) (h : Histogram) (routes : List Route) (order : List Nat) :
    Except Error Selection :=
  let (axes, bins) := Reduction.gather h.bins h.extents routes order
  if axes.isEmpty then return .value (bins.get 0)
  else .histogram <$> ofParts r axes bins h.family

def index (r : Registry) (h : Histogram) (entries : List Index) : Except Error Selection := do
  let entries ← (Index.expand entries h.rank).mapError .index
  let routes ← (h.bareAxes.zip entries).mapM fun (a, entry) => Index.route a entry
  h.reduce r routes (List.range h.rank)

/-- Refuse an axis that does not exist or stands twice. -/
def checkKept (rank : Nat) : List Nat → List Nat → Except IndexError Unit
  | _, [] => return ()
  | seen, d :: rest =>
    if rank ≤ d ∨ d ∈ seen then throw (.projection d rank) else checkKept rank (d :: seen) rest

/-- Keep the listed axes in the listed order and sum over all bins of the
others, flow bins included. -/
def project (r : Registry) (h : Histogram) (kept : List Nat) : Except Error Histogram := do
  if kept.isEmpty then throw (.index .emptyProjection)
  (checkKept h.rank [] kept).mapError .index
  let routes := h.bareAxes.mapIdx fun d a =>
    if d ∈ kept then Route.identity a else Route.sum a 0 a.size true true
  match ← h.reduce r routes kept with
  | .histogram projected => return projected
  | .value _ => throw (.index .axislessProjection)

/-- The contents of two histograms over equal axes, added bin by bin. -/
def add (h other : Histogram) : Except Error Histogram :=
  if h.axes == other.axes && h.storage == other.storage then
    return { h with bins := h.bins.addAll other.bins }
  else throw (.capability .unequalOperands)

end Histogram
end Binning
