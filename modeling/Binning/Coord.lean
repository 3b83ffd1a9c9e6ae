import Binning.Decimal.Text

/-! Coordinates of a sample and labels of categories. -/
namespace Binning

inductive Coord where
  | float (value : Float)
  | int (value : Int)
  | text (value : String)
  deriving BEq

namespace Coord

/-- The numeric reading; a text has none. -/
def toFloat? : Coord → Option Float
  | float x => some x
  | int i => some (Binary64.ofInt i)
  | text _ => none

def kindName : Coord → String
  | float _ => "float"
  | int _ => "int"
  | text _ => "str"

/-- A text stands between quotes, unchanged. -/
def render : Coord → String
  | float x => Decimal.text x
  | int i => toString i
  | text s => "\"" ++ s ++ "\""

end Coord
end Binning
