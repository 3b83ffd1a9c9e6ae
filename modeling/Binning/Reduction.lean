import Binning.Axis.Basic
import Binning.Layout
import Binning.Storage.Bins

/-! Moving contents between layouts. Whatever reshapes a histogram says for
each source axis where its slots go; one pass over the source slots then merges
every slot into its target. -/
namespace Binning

/-- What becomes of one source axis. -/
inductive Route where
  /-- The axis disappears; the admitted slots are summed. -/
  | fold (admits : Nat → Bool)
  /-- The axis stays or becomes another; a slot goes to a slot of that axis or
  is dropped. -/
  | keep (target : Nat → Option Nat) (axis : Axis)

namespace Route

def select (s : Nat) : Route := fold (· == s)

/-- Sum the bins `[lo, hi)` and, on request, the flow bins. -/
def sum (a : Axis) (lo hi : Nat) (under beyond : Bool) : Route :=
  fold fun s =>
    let i := a.indexOfSlot s
    if i = -1 then under
    else if i = a.beyond then beyond
    else Word64.signed lo ≤ i && i < Word64.signed hi

/-- Keep the bins `[lo, hi)` in groups of `merge` as the bins of `new`, and the
flow bins on request. -/
def regroup (a new : Axis) (lo hi merge : Nat) (under beyond : Bool) : Route :=
  let target? (i : Int) : Option Int :=
    if i = -1 ∧ under then some (-1)
    else if i = a.beyond ∧ beyond then some new.beyond
    else if Word64.signed lo ≤ i ∧ i < Word64.signed hi then
      some ((i - Word64.signed lo).tdiv (Word64.signed merge))
    else none
  keep (fun s => target? (a.indexOfSlot s) >>= new.slot?) new

/-- Keep every slot of an axis that has grown, with `front` new bins before the
old ones. -/
def regrow (a new : Axis) (front : Nat) : Route :=
  let target (i : Int) : Int :=
    if i = -1 then -1
    else if i = a.beyond then new.beyond
    else i + Word64.signed front
  keep (fun s => new.slot? (target (a.indexOfSlot s))) new

def identity (a : Axis) : Route := keep some a

def axis? : Route → Option Axis
  | fold _ => none
  | keep _ axis => some axis

/-- Where slot `s` goes: nowhere, into a sum, or to a slot. -/
def send (r : Route) (s : Nat) : Option (Option Nat) :=
  match r with
  | fold admits => if admits s then some none else none
  | keep target _ => (target s).map some

end Route

namespace Reduction

/-- The axes that stay, in the given order. -/
def axes (routes : List Route) (order : List Nat) : List Axis :=
  order.filterMap fun d => routes[d]? >>= Route.axis?

/-- Where each axis sends its slot of a tuple, if all of them admit it. -/
def sendAll : List Route → List Nat → Option (List (Option Nat))
  | route :: routes, s :: slots => do
    let first ← route.send s
    let others ← sendAll routes slots
    return first :: others
  | _, _ => some []

/-- Where position `p` of a layout over `extents` goes in a layout over `kept`,
which has the axes that stay in the given order. -/
def target (extents kept : List Nat) (routes : List Route) (order : List Nat) (p : Nat) :
    Option Nat :=
  (sendAll routes (Layout.tuple extents p)).map fun sent =>
    Layout.position kept (order.filterMap fun d => sent[d]? >>= id)

/-- Send contents laid out over `extents` along the routes. The axes that stay
are laid out in the given order; without any there is a single slot. -/
def gather (bins : Bins) (extents : List Nat) (routes : List Route) (order : List Nat) :
    List Axis × Bins :=
  let axes := axes routes order
  let kept := axes.map Axis.extent
  (axes, bins.gather (Layout.volume kept) (target extents kept routes order))

end Reduction
end Binning
