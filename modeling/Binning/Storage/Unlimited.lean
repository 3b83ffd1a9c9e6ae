import Binning.Cell

/-! Counters that start narrow, widen together when one of them no longer fits,
and turn into sums of weights when a weight is no whole number or a count
leaves 64 bits. -/
namespace Binning

inductive Width where
  | eight
  | sixteen
  | thirtyTwo
  | sixtyFour
  deriving DecidableEq

namespace Width

def bits : Width → Nat
  | eight => 8
  | sixteen => 16
  | thirtyTwo => 32
  | sixtyFour => 64

def upward : Width → List Width
  | eight => [eight, sixteen, thirtyTwo, sixtyFour]
  | sixteen => [sixteen, thirtyTwo, sixtyFour]
  | thirtyTwo => [thirtyTwo, sixtyFour]
  | sixtyFour => [sixtyFour]

/-- The narrowest width from `w` up that holds `n`. -/
def fitting? (w : Width) (n : Nat) : Option Width := w.upward.find? (n < 1 <<< ·.bits)

end Width

inductive Unlimited where
  | counts (width : Width) (slots : Array Nat)
  | reals (slots : Array Float)

namespace Unlimited

def empty (length : Nat) : Unlimited := counts .eight (Array.replicate length 0)

def length : Unlimited → Nat
  | counts _ slots => slots.size
  | reals slots => slots.size

def get (u : Unlimited) (i : Nat) : Cell :=
  match u with
  | counts _ slots => .count (slots.getD i 0)
  | reals slots => .real (slots.getD i 0)

def toReals : Unlimited → Array Float
  | counts _ slots => slots.map Binary64.ofNat
  | reals slots => slots

/-- Add to a slot as a sum of weights. -/
def addReal (u : Unlimited) (i : Nat) (x : Float) : Unlimited := reals (u.toReals.modify i (· + x))

/-- Add a count to a slot, as wide as its total needs. -/
def addCount (u : Unlimited) (i n : Nat) : Unlimited :=
  match u with
  | reals _ => u.addReal i (Binary64.ofNat n)
  | counts width slots =>
    match width.fitting? (slots.getD i 0 + n) with
    | some wider => counts wider (slots.modify i (· + n))
    | none => u.addReal i (Binary64.ofNat n)

/-- The weight is a whole number of one word. -/
def countable (weight : Float) : Bool :=
  0 ≤ weight && Binary64.isWhole weight && weight < Binary64.ofNat Word64.maxUnsigned

def add (u : Unlimited) (i : Nat) (weight : Float) : Unlimited :=
  match u with
  | counts _ _ =>
    if countable weight then u.addCount i (Binary64.toUnsigned weight) else u.addReal i weight
  | reals _ => u.addReal i weight

/-- Add slot `j` of other counters to slot `i`. -/
def addFrom (u : Unlimited) (i : Nat) (other : Unlimited) (j : Nat) : Unlimited :=
  match other with
  | counts _ slots => u.addCount i (slots.getD j 0)
  | reals slots => u.addReal i (slots.getD j 0)

def scale (u : Unlimited) (factor : Float) : Unlimited := reals (u.toReals.map (· * factor))

end Unlimited
end Binning
