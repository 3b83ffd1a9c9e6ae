import Binning.Error

/-! Bins between explicit edges, from two edges up, in ascending order. -/
namespace Binning

structure Edges where
  list : List Float
  deriving BEq

namespace Edges

/-- Each edge is below the next. -/
def ascending : List Float → Bool
  | a :: b :: rest => !(b ≤ a) && ascending (b :: rest)
  | _ => true

def new (edges : List Float) : Except ConfigError Edges := do
  if edges.length < 2 then throw .fewEdges
  if edges.any (!Binary64.isFinite ·) then throw .unboundedEdge
  if !ascending edges then throw .unorderedEdges
  return ⟨edges⟩

variable (e : Edges)

def size : Nat := e.list.length - 1

def edge (k : Nat) : Float := e.list.getD k Binary64.nan

/-- The bin of `x`: -1 below the first edge, the size from the last edge on and
for NaN. -/
def index (x : Float) : Int :=
  if x.isNaN then e.size else ((e.list.takeWhile (· ≤ x)).length : Int) - 1

/-- The coordinate at fractional bin `i`; infinite beyond the ends. -/
def value (i : Float) : Float :=
  let size := Binary64.ofNat e.size
  if i < 0 then -Binary64.infinity
  else if i == size then e.edge e.size
  else if size < i then Binary64.infinity
  else
    let k := Binary64.toUnsigned i
    let z := i - Binary64.ofNat k
    if z == 0 then e.edge k else (1 - z) * e.edge k + z * e.edge (k + 1)

/-- Grow to include `x`; its bin and the bins added in front. The new edge is
just past `x`, or half the width of the last bin beyond the old edge if that is
farther out. -/
def grow (x : Float) : Int × Nat × Edges :=
  let i := e.index x
  if !Binary64.isFinite x then (if x < 0 then -1 else e.size, 0, e)
  else if i < 0 then
    let half := e.value 0.5 - e.value 0
    (0, 1, ⟨Binary64.least x (e.edge 0 - half) :: e.list⟩)
  else if i < e.size then (i, 0, e)
  else
    let size := Binary64.ofNat e.size
    let half := e.value size - e.value (size - 0.5)
    let added := Binary64.greatest (Binary64.nextUp x) (e.edge e.size + half)
    (i, 0, ⟨e.list ++ [added]⟩)

/-- The numbers from `lo` to `hi` in steps of `merge`, then `hi` itself if no
step meets it. -/
def stops (lo hi merge : Nat) : List Nat :=
  (List.range ((hi - lo) / merge + 1)).map (lo + · * merge) ++
    if (hi - lo) % merge = 0 then [] else [hi]

/-- Bins `[lo, hi)` in groups of `merge`; the last group may be smaller. -/
def slice (lo hi merge : Nat) : Edges := ⟨(stops lo hi merge).map e.edge⟩

end Edges
end Binning
