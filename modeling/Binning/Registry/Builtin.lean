import Binning.Registry.Basic

/-! The classes that are known from the start. -/
namespace Binning.Registry

def mainAxes : List (String × List AxisKind) :=
  [("Regular", [.regularNone, .regularUnder, .regularOver, .regularFlow, .regularGrowth,
      .regularCircular, .regularLog, .regularSqrt, .regularPow]),
    ("Variable", [.variableNone, .variableUnder, .variableOver, .variableFlow, .variableGrowth]),
    ("Integer", [.integerNone, .integerUnder, .integerOver, .integerFlow, .integerGrowth]),
    ("Category", [.categoryInt, .categoryIntGrowth, .categoryText, .categoryTextGrowth])]

def mainStorages : List (String × StorageKind) :=
  [("Int", .int), ("Double", .double), ("AtomicInt", .atomicInt), ("Unlimited", .unlimited),
    ("Weight", .weight), ("Mean", .mean), ("WeightedMean", .weightedMean)]

/-- Older names of the main axis classes. They claim nothing, so nothing is
cast to them. -/
def retiredClasses : List String := ["regular", "variable", "integer", "category"]

def builtinSpecs : List ClassSpec :=
  (mainAxes.map fun (name, kinds) =>
    { name, family := .main, base := .axis, types := kinds.map .axis }) ++
  (mainStorages.map fun (name, kind) =>
    { name, family := .main, base := .storage, types := [.storage kind] }) ++
  (retiredClasses.map fun name => { name, family := .main, base := .axis, types := [] }) ++
  (AxisKind.all.map fun kind =>
    { name := kind.name, family := .native, base := .axis, types := [.axis kind] }) ++
  (StorageKind.all.map fun kind =>
    { name := kind.name, family := .native, base := .storage, types := [.storage kind] })

/-- Each class has a lower priority than those before it. -/
def builtin : Registry :=
  builtinSpecs.foldl (fun r spec => ⟨r.entries ++ [r.entry spec]⟩) {}

end Binning.Registry
