import Binning.Word64

/-! Exact operations on binary64 numbers: a finite number is decoded into its
sign, significand and exponent, and floors, casts and neighbours are taken on
integers. Nothing here rounds except `ofNat` and `ofInt`, which round once to
the nearest number, ties to even. -/
namespace Binning.Binary64

/-- A finite number, `± significand * 2 ^ exponent`. -/
structure Parts where
  negative : Bool
  significand : Nat
  exponent : Int
  deriving DecidableEq

def infinity : Float := Float.ofBits 0x7FF0000000000000

def nan : Float := Float.ofBits 0x7FF8000000000000

/-- The parts of a finite number; infinities and NaN have none. -/
def parts? (x : Float) : Option Parts :=
  let bits : Nat := x.toBits.toNat
  let negative := decide (0x8000000000000000 ≤ bits)
  let field : Nat := bits / 0x10000000000000 % 0x800
  let fraction : Nat := bits % 0x10000000000000
  if field = 0x7FF then none
  else if field = 0 then some ⟨negative, fraction, -1074⟩
  else some ⟨negative, 0x10000000000000 + fraction, (field : Int) - 1075⟩

namespace Parts

def withSign (p : Parts) (magnitude : Nat) : Int :=
  if p.negative then -(magnitude : Int) else magnitude

def isWhole (p : Parts) : Bool :=
  p.significand <<< p.exponent.toNat % 1 <<< (-p.exponent).toNat == 0

def truncate (p : Parts) : Int :=
  p.withSign (p.significand <<< p.exponent.toNat >>> (-p.exponent).toNat)

/-- The greatest integer not above the number. -/
def floor (p : Parts) : Int :=
  p.withSign (p.significand <<< p.exponent.toNat) >>> (-p.exponent).toNat

end Parts

/-- The nearest number to a word. -/
def ofNat (n : Nat) : Float := n.toUInt64.toFloat

/-- The nearest number to a signed word. -/
def ofInt (i : Int) : Float :=
  if 0 ≤ i then ofNat i.toNat else -ofNat (-i).toNat

def isFinite (x : Float) : Bool := (parts? x).isSome

def isWhole (x : Float) : Bool := (parts? x).any Parts.isWhole

/-- The greatest whole number not above `x`. Whole numbers, infinities and NaN
are their own floor, which keeps the sign of zero. -/
def floor (x : Float) : Float :=
  match parts? x with
  | none => x
  | some p => if p.isWhole then x else ofInt p.floor

/-- The signed word nearest to the integer part; zero for NaN. -/
def toSigned (x : Float) : Int :=
  match parts? x with
  | some p => Word64.clampSigned p.truncate
  | none => if x.isNaN then 0 else if x < 0 then Word64.minSigned else Word64.maxSigned

/-- The unsigned word nearest to the integer part; zero for NaN. -/
def toUnsigned (x : Float) : Nat :=
  match parts? x with
  | some p => Word64.clampUnsigned p.truncate
  | none => if x.isNaN || x < 0 then 0 else Word64.maxUnsigned

/-- The least number above `x`; NaN and positive infinity stay. -/
def nextUp (x : Float) : Float :=
  if x.isNaN || x == infinity then x
  else if x == 0 then Float.ofBits 1
  else if x < 0 then Float.ofBits (x.toBits - 1)
  else Float.ofBits (x.toBits + 1)

/-- The lesser of two numbers; a NaN gives way to the other. -/
def least (x y : Float) : Float :=
  if x.isNaN then y else if y < x then y else x

/-- The greater of two numbers; a NaN gives way to the other. -/
def greatest (x y : Float) : Float :=
  if x.isNaN then y else if x < y then y else x

end Binning.Binary64
