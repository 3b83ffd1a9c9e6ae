import Binning.Axis.Basic

/-! The bin of a coordinate, with and without growth. -/
namespace Binning.Axis
variable [Elementary]

def numeric (a : Axis) (c : Coord) : Except IndexError Float :=
  match c.toFloat? with
  | some x => return x
  | none => throw (.numericLookup a.kind c)

/-- The bin of a coordinate, from -1 to the size. -/
def index (a : Axis) (c : Coord) : Except IndexError Int :=
  match a.law with
  | .regular r =>
    if a.options.circular then r.indexCircular <$> a.numeric c else r.index <$> a.numeric c
  | .edges e => e.index <$> a.numeric c
  | .integer r =>
    match c with
    | .int i => return r.indexInt i
    | _ => r.index <$> a.numeric c
  | .category l => l.index c

/-- Where an entry goes: its bin after growth, the bins growth puts in front,
and the axis it grows to if it grows. -/
structure Placement where
  index : Int
  front : Nat
  grown : Option Axis

def grow (a : Axis) (c : Coord) : Except IndexError (Int × Nat × Axis) :=
  match a.law with
  | .regular r => do
    let (index, front, law) ← r.grow (← a.numeric c)
    return (index, front, { a with law := .regular law })
  | .edges e => do
    let (index, front, law) := e.grow (← a.numeric c)
    return (index, front, { a with law := .edges law })
  | .integer r => do
    let (index, front, law) ← r.grow (← a.numeric c)
    return (index, front, { a with law := .integer law })
  | .category l => do
    let (index, law) ← l.grow c
    return (index, 0, { a with law := .category law })

/-- Place an entry. Fixed labels refuse what is not among them. -/
def locate (a : Axis) (c : Coord) : Except IndexError Placement := do
  let index ← a.index c
  if a.InRange index then return ⟨index, 0, none⟩
  else if a.options.growth then
    let (index, front, grown) ← a.grow c
    return ⟨index, front, if grown.size = a.size then none else some grown⟩
  else if a.isCategory then throw (.unknownLabel c)
  else return ⟨index, 0, none⟩

end Binning.Axis
