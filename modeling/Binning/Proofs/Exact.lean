import Binning.Scalar
import Mathlib.Data.Rat.Floor

/-! The exact reading of number operations: the rationals, where nothing is
rounded and every number is finite. -/
namespace Binning

instance : Scalar ℚ where
  decidableLT := inferInstance
  decidableLE := inferInstance
  ofNat n := n
  floor q := ⌊q⌋
  isFinite _ := true
  toSigned q := Word64.clampSigned (q.num.tdiv q.den)

end Binning
