import Binning.Error
import Binning.Storage.Unlimited

/-! The contents of the bins: one slot per bin, all of one storage kind. -/
namespace Binning

inductive Bins where
  | int (slots : Array Nat)
  | double (slots : Array Float)
  | atomicInt (slots : Array Nat)
  | unlimited (slots : Unlimited)
  | weight (slots : Array (WeightedSum Float))
  | mean (slots : Array (Mean Float))
  | weightedMean (slots : Array (WeightedMean Float))

/-- Refuse an entry that the storage cannot take. -/
def StorageKind.checkEntry (kind : StorageKind) (weight sample : Option Float) :
    Except CapabilityError Unit := do
  if kind.takesSample then
    if sample.isNone then throw (.sampleMissing kind)
  else if sample.isSome then throw (.sampleRefused kind)
  if let some w := weight then
    if kind.isIntegral && !(0 ≤ w && Binary64.isWhole w) then throw (.weightRefused kind w)

namespace Bins

def empty (kind : StorageKind) (length : Nat) : Bins :=
  match kind with
  | .int => int (Array.replicate length 0)
  | .double => double (Array.replicate length 0)
  | .atomicInt => atomicInt (Array.replicate length 0)
  | .unlimited => unlimited (Unlimited.empty length)
  | .weight => weight (Array.replicate length .empty)
  | .mean => mean (Array.replicate length .empty)
  | .weightedMean => weightedMean (Array.replicate length .empty)

def kind : Bins → StorageKind
  | int _ => .int
  | double _ => .double
  | atomicInt _ => .atomicInt
  | unlimited _ => .unlimited
  | weight _ => .weight
  | mean _ => .mean
  | weightedMean _ => .weightedMean

def length : Bins → Nat
  | int slots => slots.size
  | double slots => slots.size
  | atomicInt slots => slots.size
  | unlimited slots => slots.length
  | weight slots => slots.size
  | mean slots => slots.size
  | weightedMean slots => slots.size

def get (b : Bins) (i : Nat) : Cell :=
  match b with
  | int slots => .count (slots.getD i 0)
  | double slots => .real (slots.getD i 0)
  | atomicInt slots => .count (slots.getD i 0)
  | unlimited slots => slots.get i
  | weight slots => .weighted (slots.getD i .empty)
  | mean slots => .mean (slots.getD i .empty)
  | weightedMean slots => .weightedMean (slots.getD i .empty)

def cells (b : Bins) : List Cell := (List.range b.length).map b.get

/-- Record an entry that the storage takes, of weight one unless said
otherwise. -/
def record (b : Bins) (i : Nat) (weight sample : Option Float) : Bins :=
  let w := weight.getD 1
  let x := sample.getD 0
  match b with
  | int slots => int (slots.modify i (Word64.addSaturating · (Binary64.toUnsigned w)))
  | double slots => double (slots.modify i (· + w))
  | atomicInt slots => atomicInt (slots.modify i (Word64.addWrapping · (Binary64.toUnsigned w)))
  | unlimited slots => unlimited (slots.add i w)
  | .weight slots => .weight (slots.modify i (·.fill w))
  | mean slots => mean (slots.modify i (·.fill w x))
  | weightedMean slots => weightedMean (slots.modify i (·.fill w x))

/-- Count one entry from a writer that shares the bins with others. -/
def recordShared (b : Bins) (i : Nat) : Except CapabilityError Bins :=
  match b with
  | atomicInt slots => return atomicInt (slots.modify i (Word64.addWrapping · 1))
  | _ => throw (.concurrentStorage b.kind)

/-- Merge slot `j` of bins of the same kind into slot `i`. -/
def addFrom (b : Bins) (i : Nat) (other : Bins) (j : Nat) : Bins :=
  match b, other with
  | int slots, int others => int (slots.modify i (Word64.addSaturating · (others.getD j 0)))
  | double slots, double others => double (slots.modify i (· + others.getD j 0))
  | atomicInt slots, atomicInt others =>
    atomicInt (slots.modify i (Word64.addWrapping · (others.getD j 0)))
  | unlimited slots, unlimited others => unlimited (slots.addFrom i others j)
  | weight slots, weight others => weight (slots.modify i (·.merge (others.getD j .empty)))
  | mean slots, mean others => mean (slots.modify i (·.merge (others.getD j .empty)))
  | weightedMean slots, weightedMean others =>
    weightedMean (slots.modify i (·.merge (others.getD j .empty)))
  | b, _ => b

/-- New bins in which slot `target j` has slot `j` merged in, from the first
slot on; slots without a target are dropped. -/
def gather (b : Bins) (length : Nat) (target : Nat → Option Nat) : Bins :=
  (List.range b.length).foldl
    (fun out j => match target j with
      | some i => out.addFrom i b j
      | none => out)
    (empty b.kind length)

/-- Merge every slot of other bins into the same slot. -/
def addAll (b other : Bins) : Bins :=
  (List.range (min b.length other.length)).foldl (fun out i => out.addFrom i other i) b

def scale (b : Bins) (factor : Float) : Except CapabilityError Bins :=
  match b with
  | int _ | atomicInt _ => throw (.scaling b.kind)
  | double slots => return double (slots.map (· * factor))
  | unlimited slots => return unlimited (slots.scale factor)
  | weight slots => return weight (slots.map (·.scale factor))
  | mean slots => return mean (slots.map (·.scale factor))
  | weightedMean slots => return weightedMean (slots.map (·.scale factor))

def reset (b : Bins) : Bins := empty b.kind b.length

def equal (b other : Bins) : Bool := b.kind == other.kind && b.cells == other.cells

instance : BEq Bins := ⟨equal⟩

end Bins
end Binning
