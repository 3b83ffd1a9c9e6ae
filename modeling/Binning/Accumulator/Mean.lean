import Binning.Scalar

/-! Count, mean and variance of samples, updated entry by entry so that no
large sums are subtracted from each other. -/
namespace Binning

structure Mean (α : Type) where
  /-- The number of entries, by weight. -/
  count : α
  value : α
  /-- The squared deviations from the mean, by weight. -/
  deviation : α
  deriving BEq

namespace Mean
variable {α : Type} [Scalar α]

def empty : Mean α := ⟨0, 0, 0⟩

/-- The accumulator with the given moments. -/
def ofMoments (count value variance : α) : Mean α := ⟨count, value, variance * (count - 1)⟩

/-- Add a sample, counted `weight` times. A count of zero leaves mean and
deviation as they were. -/
def fill (m : Mean α) (weight x : α) : Mean α :=
  let count := m.count + weight
  if count == 0 then { m with count }
  else
    let delta := x - m.value
    let value := m.value + weight * delta / count
    ⟨count, value, m.deviation + weight * delta * (x - value)⟩

/-- Add the entries of another accumulator, unless the counts cancel. -/
def merge (m n : Mean α) : Mean α :=
  let count := m.count + n.count
  if count == 0 then m
  else
    let value := (m.count * m.value + n.count * n.value) / count
    ⟨count, value, m.deviation + (n.deviation + m.count * Scalar.square (m.value - value) +
      n.count * Scalar.square (n.value - value))⟩

/-- The sample variance, from more than one entry. -/
def variance? (m : Mean α) : Option α :=
  if 1 < m.count then some (m.deviation / (m.count - 1)) else none

def scale (m : Mean α) (factor : α) : Mean α :=
  { m with value := m.value * factor, deviation := m.deviation * (factor * factor) }

end Mean
end Binning
