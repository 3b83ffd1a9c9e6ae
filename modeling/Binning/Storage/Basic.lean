import Binning.Registry.Basic

/-! Storages with the class that they are cast to. -/
namespace Binning

structure Storage where
  cls : ClassRef
  kind : StorageKind

namespace Storage

/-- Classes play no part in the equality of storages. -/
instance : BEq Storage := ⟨fun s t => s.kind == t.kind⟩

def inFamily (r : Registry) (family : Family) (kind : StorageKind) : Except Error Storage := do
  return ⟨← r.castClass (some family) (.storage kind) .storage, kind⟩

def new (r : Registry) (kind : StorageKind) : Except Error Storage := inFamily r .main kind

def render (s : Storage) : String := s.cls.name ++ "()"

end Storage
end Binning
