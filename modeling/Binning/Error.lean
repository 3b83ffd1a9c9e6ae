import Binning.Coord
import Binning.NativeType
import Binning.Options
import Binning.Transform

/-! Why an operation fails, and how each cause is worded. -/
namespace Binning

/-- Invalid arguments of a constructor or a registration. -/
inductive ConfigError where
  | noBins
  | power (p : Float)
  | unboundedRange (start stop : Float) (transform : Transform)
  | emptyRange
  | fewEdges
  | unboundedEdge
  | unorderedEdges
  | integerOrder (start stop : Int)
  | integerWidth (start stop : Int)
  | noLabels
  | mixedLabels
  | repeatedLabel
  | optionSet (requested : Options)
  | transformedOptionSet (requested : Options)
  | circularInteger
  | circularCategory
  | keywordForm (item : String)
  | keywordTwice (name : String)
  | keywordValue (name raw : String)
  | keywordsLeft (names : List String)
  | unknownClass (name : String)
  | typeTwice (name : String)
  | foreignType (name : String) (base : Base) (type : NativeType)
  | nameTaken (name family : String)
  | typeTaken (type : NativeType) (holder family : String)
  | noAxes

/-- Malformed or out-of-range coordinates and index expressions. -/
inductive IndexError where
  | labelLookup (texts : Bool) (coord : Coord)
  | numericLookup (kind : AxisKind) (coord : Coord)
  | unknownLabel (label : Coord)
  | growthTooFar (x bins : Float)
  | outOfReach (x : Float)
  | binRange (i size : Int)
  | labelRange (i : Int) (size : Nat)
  | cut (lo hi merge size : Nat)
  | secondEllipsis
  | tooManyEntries (count rank : Nat)
  | entryCount (count rank : Nat)
  | coordinateCount (count rank : Nat)
  | entryAddress (i : Int) (size : Nat) (options : Options)
  | binAddress (i : Int) (axis : String)
  | emptySelection (start stop size : Nat)
  | zeroRebin
  | unexpandedEllipsis
  | notOneDimensional (rank : Nat)
  | axisRange (i rank : Nat)
  | emptyProjection
  | projection (d rank : Nat)
  | axislessProjection
  | layoutMismatch

/-- Operations that an axis or a storage does not offer. -/
inductive CapabilityError where
  | categoryValue
  | circularCut
  | descendingRebin
  | rebin (kind : AxisKind)
  | sampleMissing (kind : StorageKind)
  | sampleRefused (kind : StorageKind)
  | weightRefused (kind : StorageKind) (weight : Float)
  | scaling (kind : StorageKind)
  | growingConcurrently (axis : String)
  | concurrentStorage (kind : StorageKind)
  | unequalOperands

inductive Error where
  | config (cause : ConfigError)
  | noConversion (base : Base) (type : NativeType)
  | index (cause : IndexError)
  | capability (cause : CapabilityError)
  /-- A position left the signed 64-bit words while it was computed. -/
  | overflow

namespace ConfigError

def message : ConfigError → String
  | noBins => "bins must be greater than 0"
  | power p => s!"power must be finite and non-zero, got {Decimal.text p}"
  | unboundedRange start stop transform =>
    s!"range [{Decimal.text start}, {Decimal.text stop}] is not finite under the " ++
      s!"{transform.render} transform"
  | emptyRange => "range of axis is zero"
  | fewEdges => "at least two edges are required"
  | unboundedEdge => "edges must be finite"
  | unorderedEdges => "edges must be strictly ascending"
  | integerOrder start stop => s!"integer axis needs start < stop, got [{start}, {stop})"
  | integerWidth start stop => s!"integer range [{start}, {stop}) is too wide"
  | noLabels => "category axis needs at least one label"
  | mixedLabels => "category labels must be all integers or all strings"
  | repeatedLabel => "category labels must be unique"
  | optionSet requested => s!"unsupported collection of options: {requested.render}"
  | transformedOptionSet requested =>
    "transformed regular axes support only underflow | overflow, got " ++ requested.render
  | circularInteger => "integer axes cannot be circular"
  | circularCategory => "category axes cannot be circular"
  | keywordForm item => s!"keyword '{item}' must be in NAME=VALUE form"
  | keywordTwice name => s!"keyword '{name}' given twice"
  | keywordValue name raw => s!"keyword '{name}' expects a boolean, got '{raw}'"
  | keywordsLeft names => "keyword(s) " ++ ", ".intercalate names ++ " not expected"
  | unknownClass name => s!"class {name} is not registered"
  | typeTwice name => s!"class {name} lists a native type twice"
  | foreignType name base type => s!"class {name} derives from {base.name} but claims {type.name}"
  | nameTaken name family => s!"class {name} is already registered in family {family}"
  | typeTaken type holder family =>
    s!"{type.name} is already claimed by {holder} in family {family}"
  | noAxes => "a histogram needs at least one axis"

end ConfigError

namespace IndexError

def message : IndexError → String
  | labelLookup texts coord =>
    (if texts then "str" else "int") ++ s!" category axis cannot look up a {coord.kindName} value"
  | numericLookup kind coord => s!"{kind.name} axis cannot look up a {coord.kindName} value"
  | unknownLabel label => s!"{label.render} is not a category of this axis"
  | growthTooFar x bins =>
    s!"growing to {Decimal.text x} would add {Decimal.text bins} bins, more than {0x1000000}"
  | outOfReach x => s!"cannot grow an integer axis to {Decimal.text x}"
  | binRange i size => s!"bin {i} out of range for axis of size {size}"
  | labelRange i size => s!"bin {i} out of range for category axis of size {size}"
  | cut lo hi merge size => s!"cannot take bins [{lo}, {hi}) by {merge} of an axis of size {size}"
  | secondEllipsis => "an index can only have a single ellipsis"
  | tooManyEntries count rank => s!"too many indices ({count}) for histogram of rank {rank}"
  | entryCount count rank => s!"expected {rank} indices, got {count}"
  | coordinateCount count rank => s!"expected {rank} coordinates, got {count}"
  | entryAddress i size options =>
    s!"bin {i} is not addressable on an axis of size {size} with options {options.render}"
  | binAddress i axis => s!"bin {i} is not addressable on axis {axis}"
  | emptySelection start stop size =>
    s!"empty selection [{start}, {stop}) on an axis of size {size}"
  | zeroRebin => "rebin factor must be positive"
  | unexpandedEllipsis => "unexpanded ellipsis"
  | notOneDimensional rank => s!"fill_1d needs a rank 1 histogram, this one has rank {rank}"
  | axisRange i rank => s!"axis {i} out of range for rank {rank}"
  | emptyProjection => "project needs at least one axis"
  | projection d rank => s!"cannot project onto axis {d} of a rank {rank} histogram"
  | axislessProjection => "projection produced no axes"
  | layoutMismatch => "storage does not match axis extents"

end IndexError

namespace CapabilityError

def message : CapabilityError → String
  | categoryValue => "category axes have no continuous values"
  | circularCut => "circular axes only support full-range slices with a dividing rebin"
  | descendingRebin => "a descending regular axis cannot be rebinned by a non-divisor"
  | rebin kind => s!"{kind.name} axes cannot be rebinned"
  | sampleMissing kind => s!"{kind.name} storage requires a sample"
  | sampleRefused kind => s!"{kind.name} storage does not take a sample"
  | weightRefused kind weight =>
    s!"{kind.name} storage only takes whole non-negative weights, got {Decimal.text weight}"
  | scaling kind => s!"{kind.name} storage cannot be scaled"
  | growingConcurrently axis =>
    s!"concurrent filling is not supported with growing axis {axis}"
  | concurrentStorage kind => s!"concurrent filling needs atomic_int storage, not {kind.name}"
  | unequalOperands => "only histograms with equal axes and storage can be added"

end CapabilityError

def Error.message : Error → String
  | config cause => "configuration error: " ++ cause.message
  | noConversion base type => s!"no conversion to {base.name} from {type.name} found"
  | index cause => "index error: " ++ cause.message
  | capability cause => "unsupported operation: " ++ cause.message
  | overflow => "position out of the signed 64-bit range"

end Binning
