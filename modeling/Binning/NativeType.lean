import Binning.Axis.Kind
import Binning.Storage.Kind

/-! What a class can stand for: a kind of axis or a kind of storage. -/
namespace Binning

/-- What a class derives from. -/
inductive Base where
  | axis
  | storage
  deriving DecidableEq

def Base.name : Base → String
  | axis => "Axis"
  | storage => "Storage"

inductive NativeType where
  | axis (kind : AxisKind)
  | storage (kind : StorageKind)
  deriving DecidableEq

namespace NativeType

/-- Every type in its order: axes first, each base as its kinds are listed. -/
def all : List NativeType := AxisKind.all.map axis ++ StorageKind.all.map storage

def base : NativeType → Base
  | axis _ => .axis
  | storage _ => .storage

def name : NativeType → String
  | axis kind => kind.name
  | storage kind => kind.name

theorem mem_all (t : NativeType) : t ∈ all := by
  cases t with
  | axis kind => exact List.mem_append_left _ (List.mem_map_of_mem (AxisKind.mem_all kind))
  | storage kind => exact List.mem_append_right _ (List.mem_map_of_mem (StorageKind.mem_all kind))

end NativeType
end Binning
