import Binning.Registry.Builtin

/-! The table of classes as it is changed and walked, statement by statement. A
refused registration leaves whatever the statements before it have written. -/
namespace Binning.Registry

/-- Operations on a table that is changed in place. -/
abbrev InPlace := EStateM ConfigError Registry

namespace InPlace

/-- A class of the family gives its types to its heir only. -/
def checkHolder (spec : ClassSpec) (e : Entry) : InPlace Unit := do
  if e.cls.family ≠ spec.family ∨ e.base ≠ spec.base then return
  if some e.cls.name = spec.heirOf then return
  if let some type := e.types.find? (· ∈ spec.types) then
    throw (.typeTaken type e.cls.name spec.family.name)

def register (spec : ClassSpec) : InPlace ClassRef := do
  if ¬ spec.types.Nodup then throw (.typeTwice spec.name)
  if let some type := spec.types.find? (·.base ≠ spec.base) then
    throw (.foreignType spec.name spec.base type)
  let r ← get
  if r.entries.any fun e => e.cls.name = spec.name ∧ e.cls.family = spec.family then
    throw (.nameTaken spec.name spec.family.name)
  r.entries.forM (checkHolder spec)
  let entry := r.entry spec
  set (⟨entry :: r.entries⟩ : Registry)
  return entry.cls

end InPlace

/-- One pass in the order of priority. It ends at the first class of the wanted
family, and keeps the first one of the main family in case there is none. -/
def walk (family : Family) (type : NativeType) (base : Base) (fallback : Option Entry) :
    List Entry → Option Entry
  | [] => fallback
  | e :: rest =>
    if e.base ≠ base ∨ type ∉ e.types then walk family type base fallback rest
    else if e.cls.family = family then some e
    else if fallback.isNone ∧ e.cls.family = .main then walk family type base (some e) rest
    else walk family type base fallback rest

end Binning.Registry
