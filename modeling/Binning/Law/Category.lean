import Binning.Error

/-! Bins that hold one label each. -/
namespace Binning

/-- Distinct labels of one type; bin `k` holds the `k`-th. -/
inductive Category where
  | ints (labels : List Int)
  | texts (labels : List String)
  deriving DecidableEq

namespace Category

def labels : Category → List Coord
  | ints labels => labels.map .int
  | texts labels => labels.map .text

def size : Category → Nat
  | ints labels => labels.length
  | texts labels => labels.length

def hasTexts : Category → Bool
  | ints _ => false
  | texts _ => true

/-- The labels, if they are all integers. -/
def allInts? (labels : List Coord) : Option (List Int) :=
  labels.mapM fun | .int i => some i | _ => none

/-- The labels, if they are all texts. -/
def allTexts? (labels : List Coord) : Option (List String) :=
  labels.mapM fun | .text s => some s | _ => none

def new (labels : List Coord) : Except ConfigError Category := do
  if labels.isEmpty then throw .noLabels
  match allInts? labels, allTexts? labels with
  | some is, _ => if is.Nodup then return .ints is else throw .repeatedLabel
  | none, some ss => if ss.Nodup then return .texts ss else throw .repeatedLabel
  | none, none => throw .mixedLabels

/-- The bin of a label, if it has the type of the labels; the size if the label
is unknown. -/
def position? : Category → Coord → Option Nat
  | ints labels, .int i => some (labels.idxOf i)
  | texts labels, .text s => some (labels.idxOf s)
  | _, _ => none

def index (c : Category) (label : Coord) : Except IndexError Int :=
  match c.position? label with
  | some k => return k
  | none => throw (.labelLookup c.hasTexts label)

def append : Category → Coord → Category
  | ints labels, .int i => ints (labels ++ [i])
  | texts labels, .text s => texts (labels ++ [s])
  | c, _ => c

/-- Append a label unless it is known; its bin. -/
def grow (c : Category) (label : Coord) : Except IndexError (Int × Category) := do
  let i ← c.index label
  return (i, if i < c.size then c else c.append label)

def slice (lo hi : Nat) : Category → Category
  | ints labels => ints ((labels.take hi).drop lo)
  | texts labels => texts ((labels.take hi).drop lo)

end Category
end Binning
