import Binning.Law.Category
import Binning.Law.Edges
import Binning.Law.IntegerRange
import Binning.Law.Regular

/-! An axis: a binning law, its options and a label. The storage slots of an
axis are its bins in order, with the underflow bin in front and the overflow
bin behind where they exist. -/
namespace Binning

inductive Law where
  | regular (law : Regular)
  | edges (law : Edges)
  | integer (law : IntegerRange)
  | category (law : Category)
  deriving BEq

structure Axis where
  law : Law
  options : Options
  label : Option String
  deriving BEq

namespace Axis

def size (a : Axis) : Nat :=
  match a.law with
  | .regular r => r.size
  | .edges e => e.size
  | .integer r => r.size
  | .category c => c.size

def extent (a : Axis) : Nat := a.size + a.options.flowBins

/-- The index one past the last bin. -/
def beyond (a : Axis) : Int := Word64.signed a.size

def isCategory (a : Axis) : Bool := a.law matches .category _

/-- The index is that of a bin in range. -/
def InRange (a : Axis) (i : Int) : Prop := 0 ≤ i ∧ i < a.beyond

instance (a : Axis) (i : Int) : Decidable (a.InRange i) := inferInstanceAs (Decidable (_ ∧ _))

/-- The index has a storage slot. -/
def representable (a : Axis) (i : Int) : Bool :=
  if i = -1 then a.options.underflow
  else if i = a.beyond then a.options.overflow
  else decide (a.InRange i)

/-- The storage slot of a representable index. -/
def slot (a : Axis) (i : Int) : Nat := Word64.unsigned (i + a.options.underflow.toNat)

def slot? (a : Axis) (i : Int) : Option Nat := if a.representable i then some (a.slot i) else none

/-- The index that a storage slot holds. -/
def indexOfSlot (a : Axis) (s : Nat) : Int := Word64.signed s - a.options.underflow.toNat

def kind (a : Axis) : AxisKind :=
  let o := a.options
  match a.law with
  | .regular r =>
    match r.transform with
    | .log => .regularLog
    | .sqrt => .regularSqrt
    | .pow _ => .regularPow
    | .id =>
      if o.circular then .regularCircular
      else if o.growth then .regularGrowth
      else match o.underflow, o.overflow with
        | false, false => .regularNone
        | true, false => .regularUnder
        | false, true => .regularOver
        | true, true => .regularFlow
  | .edges _ =>
    if o.growth then .variableGrowth
    else match o.underflow, o.overflow with
      | false, false => .variableNone
      | true, false => .variableUnder
      | false, true => .variableOver
      | true, true => .variableFlow
  | .integer _ =>
    if o.growth then .integerGrowth
    else match o.underflow, o.overflow with
      | false, false => .integerNone
      | true, false => .integerUnder
      | false, true => .integerOver
      | true, true => .integerFlow
  | .category c =>
    match c.hasTexts, o.growth with
    | false, false => .categoryInt
    | false, true => .categoryIntGrowth
    | true, false => .categoryText
    | true, true => .categoryTextGrowth

end Axis
end Binning
