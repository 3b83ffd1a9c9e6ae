/-! The seven ways to accumulate entries in a bin. -/
namespace Binning

inductive StorageKind where
  /-- Counts that stop at the largest word. -/
  | int
  | double
  /-- Counts that may be shared between writers. -/
  | atomicInt
  /-- Counts that widen on demand and then turn into sums of weights. -/
  | unlimited
  | weight
  | mean
  | weightedMean
  deriving DecidableEq

namespace StorageKind

def all : List StorageKind := [int, double, atomicInt, unlimited, weight, mean, weightedMean]

def name : StorageKind → String
  | int => "int"
  | double => "double"
  | atomicInt => "atomic_int"
  | unlimited => "unlimited"
  | weight => "weight"
  | mean => "mean"
  | weightedMean => "weighted_mean"

/-- Bins hold whole counts of at most one word. -/
def isIntegral (k : StorageKind) : Bool := k matches int | atomicInt

/-- Entries carry a sample. -/
def takesSample (k : StorageKind) : Bool := k matches mean | weightedMean

theorem mem_all (k : StorageKind) : k ∈ all := by
  cases k <;> decide

end StorageKind
end Binning
