import Binning.Axis.Basic

/-! An axis as text: its law, its label, its options. -/
namespace Binning.Axis

def commas (items : List String) : String := ", ".intercalate items

def lawText (a : Axis) : String :=
  match a.law with
  | .regular r =>
    let last := Binary64.ofNat r.size
    let (start, stop) :=
      if a.options.circular then (r.valueCircular 0, r.valueCircular last)
      else (r.value 0, r.value last)
    "regular" ++ r.transform.suffix ++ "(" ++
      commas [toString r.size, Decimal.text start, Decimal.text stop]
  | .edges e => "variable(" ++ commas (e.list.map Decimal.text)
  | .integer r => s!"integer({r.start}, {r.stop}"
  | .category c => "category(" ++ commas (c.labels.map Coord.render)

def powerText (a : Axis) : String :=
  match a.law with
  | .regular ⟨_, .pow p⟩ => ", power=" ++ Decimal.text p
  | _ => ""

def render (a : Axis) : String :=
  let label := match a.label with
    | some label => ", metadata=\"" ++ label ++ "\""
    | none => ""
  a.lawText ++ label ++ ", options=" ++ a.options.render ++ a.powerText ++ ")"

end Binning.Axis
