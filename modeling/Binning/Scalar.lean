import Binning.Binary64

/-! The number operations that binning laws and accumulators use. `Float` is
what runs; the same definitions read over the rationals are exact. -/
namespace Binning

class Scalar (α : Type) extends Zero α, One α, Add α, Sub α, Mul α, Div α, Neg α,
    LT α, LE α, BEq α where
  decidableLT : DecidableRel (· < · : α → α → Prop)
  decidableLE : DecidableRel (· ≤ · : α → α → Prop)
  /-- The number nearest to a word. -/
  ofNat : Nat → α
  /-- The greatest whole number not above. -/
  floor : α → α
  isFinite : α → Bool
  /-- The signed word nearest to the integer part. -/
  toSigned : α → Int

namespace Scalar
variable {α : Type} [Scalar α]

instance : DecidableRel (· < · : α → α → Prop) := decidableLT

instance : DecidableRel (· ≤ · : α → α → Prop) := decidableLE

/-- The square as one product. -/
def square (x : α) : α := x * x

end Scalar

instance : Scalar Float where
  zero := 0
  one := 1
  decidableLT := inferInstance
  decidableLE := inferInstance
  ofNat := Binary64.ofNat
  floor := Binary64.floor
  isFinite := Binary64.isFinite
  toSigned := Binary64.toSigned

end Binning
