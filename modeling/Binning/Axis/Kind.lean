/-! The kinds of axis: each binning law with each option set it admits. -/
namespace Binning

inductive AxisKind where
  | regularNone
  | regularUnder
  | regularOver
  | regularFlow
  | regularGrowth
  | regularCircular
  | regularLog
  | regularSqrt
  | regularPow
  | variableNone
  | variableUnder
  | variableOver
  | variableFlow
  | variableGrowth
  | integerNone
  | integerUnder
  | integerOver
  | integerFlow
  | integerGrowth
  | categoryInt
  | categoryIntGrowth
  | categoryText
  | categoryTextGrowth
  deriving DecidableEq

namespace AxisKind

def all : List AxisKind :=
  [regularNone, regularUnder, regularOver, regularFlow, regularGrowth, regularCircular,
    regularLog, regularSqrt, regularPow, variableNone, variableUnder, variableOver,
    variableFlow, variableGrowth, integerNone, integerUnder, integerOver, integerFlow,
    integerGrowth, categoryInt, categoryIntGrowth, categoryText, categoryTextGrowth]

def name : AxisKind → String
  | regularNone => "regular_none"
  | regularUnder => "regular_uflow"
  | regularOver => "regular_oflow"
  | regularFlow => "regular_uoflow"
  | regularGrowth => "regular_uoflow_growth"
  | regularCircular => "regular_circular"
  | regularLog => "regular_log"
  | regularSqrt => "regular_sqrt"
  | regularPow => "regular_pow"
  | variableNone => "variable_none"
  | variableUnder => "variable_uflow"
  | variableOver => "variable_oflow"
  | variableFlow => "variable_uoflow"
  | variableGrowth => "variable_uoflow_growth"
  | integerNone => "integer_none"
  | integerUnder => "integer_uflow"
  | integerOver => "integer_oflow"
  | integerFlow => "integer_uoflow"
  | integerGrowth => "integer_growth"
  | categoryInt => "category_int"
  | categoryIntGrowth => "category_int_growth"
  | categoryText => "category_str"
  | categoryTextGrowth => "category_str_growth"

theorem mem_all (k : AxisKind) : k ∈ all := by
  cases k <;> decide

end AxisKind
end Binning
