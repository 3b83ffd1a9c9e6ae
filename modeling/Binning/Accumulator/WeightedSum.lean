import Binning.Scalar

/-! Sums of weights, with the sum of their squares as the variance. -/
namespace Binning

structure WeightedSum (α : Type) where
  value : α
  variance : α
  deriving BEq

namespace WeightedSum
variable {α : Type} [Scalar α]

def empty : WeightedSum α := ⟨0, 0⟩

def fill (s : WeightedSum α) (weight : α) : WeightedSum α :=
  ⟨s.value + weight, s.variance + weight * weight⟩

def merge (s t : WeightedSum α) : WeightedSum α :=
  ⟨s.value + t.value, s.variance + t.variance⟩

def scale (s : WeightedSum α) (factor : α) : WeightedSum α :=
  ⟨s.value * factor, s.variance * (factor * factor)⟩

end WeightedSum
end Binning
