import Binning.Scalar

/-! Weighted mean and variance of samples. -/
namespace Binning

structure WeightedMean (α : Type) where
  /-- The sum of the weights. -/
  weight : α
  /-- The sum of the squared weights. -/
  weightSquared : α
  value : α
  /-- The squared deviations from the mean, by weight. -/
  deviation : α
  deriving BEq

namespace WeightedMean
variable {α : Type} [Scalar α]

def empty : WeightedMean α := ⟨0, 0, 0, 0⟩

/-- Add a sample with a weight. A sum of weights of zero leaves mean and
deviation as they were. -/
def fill (m : WeightedMean α) (weight x : α) : WeightedMean α :=
  let total := m.weight + weight
  let squared := m.weightSquared + weight * weight
  if total == 0 then { m with weight := total, weightSquared := squared }
  else
    let delta := x - m.value
    let value := m.value + weight * delta / total
    ⟨total, squared, value, m.deviation + weight * delta * (x - value)⟩

/-- Add the entries of another accumulator, unless the weights cancel. -/
def merge (m n : WeightedMean α) : WeightedMean α :=
  let total := m.weight + n.weight
  if total == 0 then m
  else
    let value := (m.weight * m.value + n.weight * n.value) / total
    ⟨total, m.weightSquared + n.weightSquared, value,
      m.deviation + (n.deviation + m.weight * Scalar.square (m.value - value) +
        n.weight * Scalar.square (n.value - value))⟩

/-- The variance, corrected for the effective number of entries. -/
def variance (m : WeightedMean α) : α :=
  m.deviation / (m.weight - m.weightSquared / m.weight)

def scale (m : WeightedMean α) (factor : α) : WeightedMean α :=
  { m with value := m.value * factor, deviation := m.deviation * (factor * factor) }

end WeightedMean
end Binning
