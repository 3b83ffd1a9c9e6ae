import Binning.Axis.Basic

/-! A range of the bins of an axis, in groups. -/
namespace Binning.Axis
variable [Elementary]

/-- Even bins in groups that do not divide their number have a shorter last
bin, so they become explicit edges. -/
def sliceUneven (r : Regular) (lo hi merge : Nat) : Except Error Edges :=
  if r.value (Binary64.ofNat r.size) < r.value 0 then throw (.capability .descendingRebin)
  else (Edges.new ((Edges.stops lo hi merge).map fun k => r.value (Binary64.ofNat k))).mapError
    .config

def sliceLaw (a : Axis) (lo hi merge : Nat) : Except Error Law :=
  match a.law with
  | .regular r =>
    if a.options.circular then
      if lo ≠ 0 ∨ hi ≠ a.size ∨ a.size % merge ≠ 0 then throw (.capability .circularCut)
      else return .regular (r.slice lo hi merge)
    else if (hi - lo) % merge = 0 then return .regular (r.slice lo hi merge)
    else .edges <$> sliceUneven r lo hi merge
  | .edges e => return .edges (e.slice lo hi merge)
  | .integer r =>
    if 1 < merge then throw (.capability (.rebin a.kind)) else return .integer (r.slice lo hi)
  | .category c =>
    if 1 < merge then throw (.capability (.rebin a.kind)) else return .category (c.slice lo hi)

/-- Bins `[lo, hi)` in groups of `merge`, with the same options and label. -/
def slice (a : Axis) (lo hi merge : Nat) : Except Error Axis := do
  if hi ≤ lo ∨ a.size < hi ∨ merge = 0 then throw (.index (.cut lo hi merge a.size))
  let law ← a.sliceLaw lo hi merge
  return { a with law }

end Binning.Axis
