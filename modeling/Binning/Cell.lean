import Binning.Accumulator.Mean
import Binning.Accumulator.WeightedMean
import Binning.Accumulator.WeightedSum
import Binning.Decimal.Text

/-! The content of one bin. -/
namespace Binning

inductive Cell where
  | count (n : Nat)
  | real (x : Float)
  | weighted (s : WeightedSum Float)
  | mean (m : Mean Float)
  | weightedMean (m : WeightedMean Float)

/-- The sample variance, NaN from fewer than two entries. -/
def Mean.variance (m : Mean Float) : Float := m.variance?.getD Binary64.nan

namespace Cell

/-- The count, the sum of weights or the mean. -/
def value : Cell → Float
  | count n => Binary64.ofNat n
  | real x => x
  | weighted s => s.value
  | mean m => m.value
  | weightedMean m => m.value

/-- The variance estimate; the value itself for counts and plain sums. -/
def variance : Cell → Float
  | count n => Binary64.ofNat n
  | real x => x
  | weighted s => s.variance
  | mean m => m.variance
  | weightedMean m => m.variance

/-- Counts compare as integers, a count and a sum as numbers, and accumulators
only with their own kind. -/
def equal : Cell → Cell → Bool
  | count m, count n => m == n
  | count m, real y => Binary64.ofNat m == y
  | real x, count n => x == Binary64.ofNat n
  | real x, real y => x == y
  | weighted s, weighted t => s == t
  | mean m, mean n => m == n
  | weightedMean m, weightedMean n => m == n
  | _, _ => false

instance : BEq Cell := ⟨equal⟩

def equalNumber : Cell → Float → Bool
  | count n, y => Binary64.ofNat n == y
  | real x, y => x == y
  | _, _ => false

def render : Cell → String
  | count n => toString n
  | real x => Decimal.text x
  | weighted s =>
    s!"weighted_sum(value={Decimal.text s.value}, variance={Decimal.text s.variance})"
  | mean m =>
    s!"mean(count={Decimal.text m.count}, value={Decimal.text m.value}, " ++
      s!"variance={Decimal.text m.variance})"
  | weightedMean m =>
    s!"weighted_mean(wsum={Decimal.text m.weight}, wsum2={Decimal.text m.weightSquared}, " ++
      s!"value={Decimal.text m.value}, variance={Decimal.text m.variance})"

end Cell
end Binning
