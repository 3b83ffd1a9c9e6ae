/-! Structural options of an axis. -/
namespace Binning

inductive Flag where
  /-- A bin below the lowest edge. -/
  | underflow
  /-- A bin above the highest edge, or the wrap bin of a circular axis. -/
  | overflow
  /-- Coordinates wrap around the range. -/
  | circular
  /-- Entries out of range extend the axis. -/
  | growth
  deriving DecidableEq

namespace Flag

def all : List Flag := [underflow, overflow, circular, growth]

def name : Flag → String
  | underflow => "underflow"
  | overflow => "overflow"
  | circular => "circular"
  | growth => "growth"

end Flag

structure Options where
  underflow : Bool := false
  overflow : Bool := false
  circular : Bool := false
  growth : Bool := false
  deriving DecidableEq

namespace Options

def none : Options := {}

/-- Both flow bins. -/
def flow : Options := { underflow := true, overflow := true }

def contains (o : Options) : Flag → Bool
  | .underflow => o.underflow
  | .overflow => o.overflow
  | .circular => o.circular
  | .growth => o.growth

def set (o : Options) (flag : Flag) (on : Bool) : Options :=
  match flag with
  | .underflow => { o with underflow := on }
  | .overflow => { o with overflow := on }
  | .circular => { o with circular := on }
  | .growth => { o with growth := on }

def insert (o : Options) (flag : Flag) : Options := o.set flag true

def erase (o : Options) (flag : Flag) : Options := o.set flag false

def ofList (flags : List Flag) : Options := flags.foldl insert none

def toList (o : Options) : List Flag := Flag.all.filter o.contains

def isEmpty (o : Options) : Bool := o == none

def flowBins (o : Options) : Nat := o.underflow.toNat + o.overflow.toNat

def render (o : Options) : String :=
  if o.isEmpty then "none" else " | ".intercalate (o.toList.map Flag.name)

theorem contains_set (o : Options) (flag other : Flag) (on : Bool) :
    (o.set flag on).contains other = if other = flag then on else o.contains other := by
  cases flag <;> cases other <;> rfl

theorem ext_contains {o p : Options} (same : ∀ flag, o.contains flag = p.contains flag) :
    o = p := by
  have u := same .underflow
  have v := same .overflow
  have c := same .circular
  have g := same .growth
  cases o
  cases p
  simp_all [contains]

end Options

/-- How an axis is asked for: its options, both flow bins unless said
otherwise, and a label that it carries along. -/
structure Settings where
  options : Options := .flow
  label : Option String := none
  deriving DecidableEq

end Binning
