import Binning.Decimal.Text

/-! Monotone maps from coordinates to the space in which bins are even. -/
namespace Binning

/-- The functions that no arithmetic gives; the platform has them. -/
class Elementary where
  exp : Float → Float
  log : Float → Float
  pow : Float → Float → Float

instance Elementary.platform : Elementary := ⟨Float.exp, Float.log, Float.pow⟩

inductive Transform where
  | id
  | log
  | sqrt
  | pow (power : Float)
  deriving BEq

namespace Transform

section
variable [Elementary]

def forward (t : Transform) (x : Float) : Float :=
  match t with
  | id => x
  | log => Elementary.log x
  | sqrt => x.sqrt
  | pow p => Elementary.pow x p

def inverse (t : Transform) (u : Float) : Float :=
  match t with
  | id => u
  | log => Elementary.exp u
  | sqrt => u * u
  | pow p => Elementary.pow u (1 / p)

end

/-- What the transform adds to the name of an axis. -/
def suffix : Transform → String
  | id => ""
  | log => "_log"
  | sqrt => "_sqrt"
  | pow _ => "_pow"

def render : Transform → String
  | id => "id"
  | log => "log"
  | sqrt => "sqrt"
  | pow p => "pow(" ++ Decimal.text p ++ ")"

end Transform
end Binning
