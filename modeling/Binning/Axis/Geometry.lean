import Binning.Axis.Basic
import Binning.Bin

/-! Edges, centers and bins of an axis. -/
namespace Binning.Axis
variable [Elementary]

def value (a : Axis) (i : Float) : Except CapabilityError Float :=
  match a.law with
  | .regular r => return if a.options.circular then r.valueCircular i else r.value i
  | .edges e => return e.value i
  | .integer r => return r.value i
  | .category _ => throw .categoryValue

/-- Bin `i`. Every index has an interval, beyond the flow bins an infinite one;
only the labels in range are bins of a category axis. -/
def bin (a : Axis) (i : Int) : Except Error Bin :=
  match a.law with
  | .category c =>
    if a.InRange i then return .category (c.labels.getD i.toNat (.text ""))
    else throw (.index (.labelRange i a.size))
  | _ => (Except.mapError Error.capability) do
    let lower ← a.value (Binary64.ofInt i)
    let upper ← a.value (Binary64.ofInt i + 1)
    return .interval ⟨lower, upper⟩

/-- Bin `i` in range; a negative index counts modulo the size. -/
def get (a : Axis) (i : Int) : Except Error Bin :=
  if a.beyond ≤ i then throw (.index (.binRange i a.beyond)) else a.bin (i % a.beyond)

def bins (a : Axis) : List Bin :=
  (List.range a.beyond.toNat).filterMap fun (k : Nat) => (a.bin k).toOption

/-- The edges of the bins in range, one more than there are bins. -/
def edges (a : Axis) : Except CapabilityError (List Float) :=
  (List.range (a.size + 1)).mapM fun k => a.value (Binary64.ofNat k)

def centers (a : Axis) : Except CapabilityError (List Float) :=
  (List.range a.size).mapM fun k => a.value (Binary64.ofNat k + 0.5)

def widths (a : Axis) : Except CapabilityError (List Float) := do
  let edges ← a.edges
  return List.zipWith (fun lower upper => upper - lower) edges edges.tail

/-- The edges that go with dense contents. Labels use their bin numbers, and a
flow bin adds an edge on its side. -/
def denseEdges (a : Axis) (flow : Bool) : List Float :=
  let lo : Int := if flow && a.options.underflow then -1 else 0
  let hi : Int := a.beyond + if flow && a.options.overflow then 1 else 0
  (List.range (hi - lo + 1).toNat).map fun (k : Nat) =>
    let i := Binary64.ofInt (lo + k)
    (a.value i).toOption.getD i

end Binning.Axis
