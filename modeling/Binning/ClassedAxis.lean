import Binning.Axis.Blueprint
import Binning.Axis.Text
import Binning.Keywords
import Binning.Registry.Builtin

/-! Axes with the class that they are cast to, and how they are made. -/
namespace Binning

structure ClassedAxis where
  cls : ClassRef
  axis : Axis

namespace ClassedAxis

/-- Classes play no part in the equality of axes. -/
instance : BEq ClassedAxis := ⟨fun a b => a.axis == b.axis⟩

/-- Cast an axis; without a family, in the main one. -/
def cast (r : Registry) (family : Option Family) (a : Axis) : Except Error ClassedAxis := do
  let (cls, axis) ← r.castAxis family a
  return ⟨cls, axis⟩

def ofAxis (r : Registry) (a : Axis) : Except Error ClassedAxis := cast r none a

def inFamily (r : Registry) (family : Family) (a : ClassedAxis) : Except Error ClassedAxis :=
  cast r (some family) a.axis

def make (r : Registry) (b : Blueprint) (settings : Settings := {}) :
    Except Error ClassedAxis := do
  ofAxis r (← (b.buildWith settings).mapError .config)

def ofKeywords (r : Registry) (b : Blueprint) (keywords : Keywords) :
    Except Error ClassedAxis := do
  let settings ← (keywords.toSettings b.declaredFlags).mapError .config
  ofAxis r (← (b.build settings.options settings.label).mapError .config)

def makeRetired (r : Registry) (b : Blueprint) (settings : Settings := {}) :
    Except Error ClassedAxis := do
  let made ← make r b settings
  match r.lookup b.lawName .main with
  | some cls => return { made with cls }
  | none => throw (.config (.unknownClass b.lawName))

def render (a : ClassedAxis) : String := a.axis.render

end ClassedAxis
end Binning
