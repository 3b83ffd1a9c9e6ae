import Binning.Axis.Lookup
import Binning.Axis.Slice
import Binning.Reduction

/-! Index expressions: one entry for each axis, where a single ellipsis stands
for the full range of every axis that is not named. An entry picks one bin and
removes the axis, or keeps, groups or sums a range of bins. Flow bins stay on a
side where the range reaches the end of the axis. -/
namespace Binning

inductive Anchor where
  | bin (i : Int)
  /-- The bin of a coordinate or label. -/
  | value (x : Coord)
  | underflow
  | overflow

/-- A place on an axis, resolved when the expression is applied. -/
structure Loc where
  anchor : Anchor
  offset : Int := 0

namespace Loc

def ofBin (i : Int) : Loc := ⟨.bin i, 0⟩

/-- An integer that must stay within the signed words. -/
def checked (i : Int) : Except Error Int :=
  if Word64.Signed i then return i else throw .overflow

def plus (l : Loc) (k : Int) : Except Error Loc := do
  return { l with offset := ← checked (l.offset + k) }

def minus (l : Loc) (k : Int) : Except Error Loc := do
  return { l with offset := ← checked (l.offset - k) }

def resolveAnchor (anchor : Anchor) (a : Axis) : Except IndexError Int :=
  match anchor with
  | .bin i => return i
  | .value x => a.index x
  | .underflow => return -1
  | .overflow => return a.beyond

def resolve (l : Loc) (a : Axis) : Except Error Int := do
  let base ← (resolveAnchor l.anchor a).mapError .index
  checked (base + l.offset)

end Loc

/-- What is done with the bins of a range. -/
inductive Action where
  /-- Merge groups of this many bins. -/
  | rebin (factor : Nat)
  /-- Sum the range and drop the axis. -/
  | sum

/-- The bins from one place up to another; an open side reaches the end. -/
structure Slice where
  start : Option Loc := none
  stop : Option Loc := none
  action : Option Action := none

inductive Index where
  | pick (place : Loc)
  | slice (range : Slice)
  | ellipsis

namespace Index

def isEllipsis (e : Index) : Bool := e matches ellipsis

def expand (entries : List Index) (rank : Nat) : Except IndexError (List Index) := do
  let ellipses := entries.countP isEllipsis
  if 1 < ellipses then throw .secondEllipsis
  if rank < entries.length then throw (.tooManyEntries entries.length rank)
  if ellipses = 0 ∧ entries.length ≠ rank then throw (.entryCount entries.length rank)
  return entries.flatMap fun
    | ellipsis => List.replicate (rank + 1 - entries.length) (slice {})
    | entry => [entry]

/-- A bound of a range, held within the bins of the axis. -/
def bound (place : Option Loc) (a : Axis) (default : Nat) : Except Error Nat :=
  match place with
  | none => return default
  | some place => do return (max 0 (min a.beyond (← place.resolve a))).toNat

/-- The route of an axis under an entry. -/
def route (a : Axis) (entry : Index) : Except Error Route :=
  match entry with
  | ellipsis => throw (.index .unexpandedEllipsis)
  | pick place => do
    let i ← place.resolve a
    if a.representable i then return Route.select (a.slot i)
    else throw (.index (.entryAddress i a.size a.options))
  | slice range => do
    let lo ← bound range.start a 0
    let hi ← bound range.stop a a.size
    if hi ≤ lo then throw (.index (.emptySelection lo hi a.size))
    let under := lo == 0
    let beyond := hi == a.size
    match range.action with
    | some .sum => return Route.sum a lo hi under beyond
    | some (.rebin 0) => throw (.index .zeroRebin)
    | some (.rebin merge) => return Route.regroup a (← a.slice lo hi merge) lo hi merge under beyond
    | none => return Route.regroup a (← a.slice lo hi 1) lo hi 1 under beyond

end Index
end Binning
