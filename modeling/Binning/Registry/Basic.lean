import Binning.Axis.Basic
import Binning.NativeType

/-! Classes and what they stand for. A class belongs to a family and claims
native types of one base. A native type is cast to the class of highest
priority that claims it in the wanted family, or else in the main family. -/
namespace Binning

structure Family where
  name : String
  deriving DecidableEq

namespace Family

def main : Family := ⟨"main"⟩

/-- One class for each native type, named like the type. -/
def native : Family := ⟨"native"⟩

end Family

/-- A registered class. Classes are told apart by their number. -/
structure ClassRef where
  id : Nat
  name : String
  family : Family
  deriving DecidableEq

instance : BEq ClassRef := ⟨fun c d => c.id == d.id⟩

/-- What is done to an axis that is cast to a class. -/
abbrev Converter := Axis → Axis

structure ClassSpec where
  name : String
  family : Family
  base : Base
  types : List NativeType
  /-- A class of the family whose types this one may take over. -/
  heirOf : Option String := none
  converter : Option Converter := none

namespace Registry

structure Entry where
  cls : ClassRef
  base : Base
  /-- The claimed types, in their order, each once. -/
  types : List NativeType
  converter : Option Converter

end Registry

/-- The known classes, highest priority first. -/
structure Registry where
  entries : List Registry.Entry := []

namespace Registry

def typeSet (types : List NativeType) : List NativeType := NativeType.all.filter (· ∈ types)

def entry (r : Registry) (spec : ClassSpec) : Entry :=
  ⟨⟨r.entries.length, spec.name, spec.family⟩, spec.base, typeSet spec.types, spec.converter⟩

def lookup (r : Registry) (name : String) (family : Family) : Option ClassRef :=
  (r.entries.find? fun e => e.cls.name = name ∧ e.cls.family = family).map Entry.cls

/-- A type that a class other than `heirOf` already claims in the family. -/
def conflict? (r : Registry) (spec : ClassSpec) : Option (NativeType × Entry) :=
  r.entries.findSome? fun e =>
    if e.cls.family = spec.family ∧ e.base = spec.base ∧ spec.heirOf ≠ some e.cls.name then
      (e.types.find? (· ∈ spec.types)).map (·, e)
    else none

def register (r : Registry) (spec : ClassSpec) : Except ConfigError (ClassRef × Registry) := do
  if ¬ spec.types.Nodup then throw (.typeTwice spec.name)
  if let some type := spec.types.find? (·.base ≠ spec.base) then
    throw (.foreignType spec.name spec.base type)
  if (r.lookup spec.name spec.family).isSome then
    throw (.nameTaken spec.name spec.family.name)
  if let some (type, holder) := r.conflict? spec then
    throw (.typeTaken type holder.cls.name spec.family.name)
  let entry := r.entry spec
  return (entry.cls, ⟨entry :: r.entries⟩)

/-- The first class of a family that claims a type. -/
def claimant? (r : Registry) (family : Family) (type : NativeType) (base : Base) :
    Option Entry :=
  r.entries.find? fun e => e.base = base ∧ type ∈ e.types ∧ e.cls.family = family

/-- The class that a type is cast to; without a family, in the main one. -/
def castEntry (r : Registry) (family : Option Family) (type : NativeType) (base : Base) :
    Except Error Entry :=
  match r.claimant? (family.getD .main) type base <|> r.claimant? .main type base with
  | some e => return e
  | none => throw (.noConversion base type)

def castClass (r : Registry) (family : Option Family) (type : NativeType) (base : Base) :
    Except Error ClassRef :=
  Entry.cls <$> r.castEntry family type base

def find? (r : Registry) (c : ClassRef) : Option Entry := r.entries.find? (·.cls == c)

def typesOf (r : Registry) (c : ClassRef) : List NativeType := (r.find? c).elim [] Entry.types

def classes (r : Registry) (base : Base) : List ClassRef :=
  (r.entries.filter (·.base = base)).map Entry.cls

def castAxis (r : Registry) (family : Option Family) (a : Axis) :
    Except Error (ClassRef × Axis) := do
  let c ← r.castClass family (.axis a.kind) .axis
  let converter := r.find? c >>= Entry.converter
  return (c, converter.elim a (· a))

end Registry
end Binning
