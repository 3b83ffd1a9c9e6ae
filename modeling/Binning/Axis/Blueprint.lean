import Binning.Axis.Basic

/-! What an axis is built from, and the option sets that each law admits. -/
namespace Binning

inductive Blueprint where
  | regular (bins : Nat) (start stop : Float) (transform : Transform)
  | edges (list : List Float)
  | integer (start stop : Int)
  | category (labels : List Coord)

namespace Blueprint
variable [Elementary]

/-- The sets that even bins and explicit edges take as they are. -/
def continuousSets : List Options :=
  [.none, { underflow := true }, { overflow := true }, .flow, Options.flow.insert .growth]

/-- A circular axis is asked for with both flow bins and keeps the upper one,
for what has no position on the circle. -/
def resolveContinuous (requested : Options) (mayWrap : Bool) : Except ConfigError Options :=
  if requested ∈ continuousSets then return requested
  else if mayWrap ∧ requested = Options.flow.insert .circular then
    return { overflow := true, circular := true }
  else throw (.optionSet requested)

def resolveRegular (requested : Options) (transform : Transform) : Except ConfigError Options :=
  match transform with
  | .id => resolveContinuous requested true
  | _ => if requested = .flow then return requested else throw (.transformedOptionSet requested)

/-- Growth leaves nothing for flow bins to catch. -/
def resolveInteger (requested : Options) : Except ConfigError Options :=
  if requested.circular then throw .circularInteger
  else return if requested.growth then { growth := true } else requested

/-- Labels grow, or have an overflow bin for what is not among them. -/
def resolveCategory (requested : Options) : Except ConfigError Options :=
  if requested.circular then throw .circularCategory
  else return if requested.growth then { growth := true } else { overflow := true }

/-- The part of the settings that the law reads. -/
def requested (b : Blueprint) (settings : Settings) : Options :=
  match b with
  | .category _ => { settings.options with underflow := false, overflow := false }
  | _ => settings.options

def build (b : Blueprint) (requested : Options) (label : Option String) :
    Except ConfigError Axis :=
  match b with
  | .regular bins start stop transform => do
    let options ← resolveRegular requested transform
    let law ← Regular.new bins start stop transform
    return ⟨.regular law, options, label⟩
  | .edges list => do
    let law ← Edges.new list
    let options ← resolveContinuous requested false
    return ⟨.edges law, options, label⟩
  | .integer start stop => do
    let options ← resolveInteger requested
    let law ← IntegerRange.new start stop
    return ⟨.integer law, options, label⟩
  | .category labels => do
    let options ← resolveCategory requested
    let law ← Category.new labels
    return ⟨.category law, options, label⟩

def buildWith (b : Blueprint) (settings : Settings) : Except ConfigError Axis :=
  b.build (b.requested settings) settings.label

/-- The flags that the keywords of an axis may set, with their defaults. -/
def declaredFlags : Blueprint → List (Flag × Bool)
  | .category _ => [(.growth, false)]
  | _ => [(.underflow, true), (.overflow, true), (.growth, false), (.circular, false)]

def lawName : Blueprint → String
  | .regular .. => "regular"
  | .edges _ => "variable"
  | .integer .. => "integer"
  | .category _ => "category"

end Blueprint
end Binning
