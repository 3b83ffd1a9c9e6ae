import Binning.Proofs.Histogram.Failures
import Binning.Proofs.Histogram.Reductions
import Binning.Proofs.Registry

/-! Casts that go through. Every axis and every storage can be cast once the main family
claims all types, so no operation fails for want of a class. -/
namespace Binning
open Results

theorem Storage.inFamily_eq_ok {r : Registry} {family : Family} {kind : StorageKind}
    {storage : Storage} : inFamily r family kind = .ok storage ↔
      r.castClass (some family) (.storage kind) .storage = .ok storage.cls ∧
        storage.kind = kind := by
  simp only [inFamily, bind_eq_ok, pure_eq_ok]
  constructor
  · rintro ⟨cls, cast, rfl⟩
    exact ⟨cast, rfl⟩
  · rintro ⟨cast, rfl⟩
    exact ⟨_, cast, rfl⟩

namespace Histogram

variable {r : Registry} {h : Histogram}

section Covers
variable (covers : r.Covers)
include covers

theorem growAxis_of_covers (family : Family) (a : ClassedAxis) (p : Axis.Placement) :
    ∃ grown, growAxis r family a p = .ok grown := by
  unfold growAxis
  split
  · rename_i new _
    obtain ⟨classed, cast⟩ := covers.cast (some family) new
    rw [cast]
    exact ⟨_, rfl⟩
  · exact ⟨_, rfl⟩

theorem grow_of_covers (h : Histogram) (placements : List Axis.Placement) :
    ∃ g, h.grow r placements = .ok g := by
  obtain ⟨grown, grows⟩ : ∃ grown, ((h.axes.zip placements).mapM fun ap =>
      growAxis r h.family ap.1 ap.2) = .ok grown :=
    exists_mapM_eq_ok fun ap _ => growAxis_of_covers covers h.family ap.1 ap.2
  exact ⟨_, bind_eq_ok.mpr ⟨grown, grows, rfl⟩⟩

/-- There is room for every placed entry as long as all axes can be cast. -/
theorem roomFor_of_covers (h : Histogram) (placements : List Axis.Placement) :
    ∃ grown, h.roomFor r placements = .ok grown := by
  unfold roomFor
  split
  · exact grow_of_covers covers h placements
  · exact ⟨h, rfl⟩

theorem new_of_covers {axes : List ClassedAxis} (some_axis : axes ≠ []) (kind : StorageKind)
    (family : Family) : ∃ h, Histogram.new r axes kind family = .ok h := by
  obtain ⟨classed, cast⟩ : ∃ classed, axes.mapM (·.inFamily r family) = .ok classed :=
    exists_mapM_eq_ok fun c _ => covers.cast (some family) c.axis
  obtain ⟨storage, stored⟩ := covers.inFamily family kind
  simp only [Histogram.new, guard_eq_ok, bind_eq_ok, pure_eq_ok]
  exact ⟨_, by simpa using some_axis, classed, cast, storage, stored, rfl⟩

theorem ofParts_of_covers (axes : List Axis) (bins : Bins) (family : Family) :
    ∃ cast, ofParts r axes bins family = .ok cast :=
  (ofParts_ok_iff axes bins family).mpr
    ⟨covers.castAll (some family) axes, covers.inFamily family bins.kind⟩

theorem reduce_of_covers (routes : List Route) (order : List Nat) :
    ∃ out, h.reduce r routes order = .ok out := by
  rw [reduce_ok_iff]
  exact .inr ⟨covers.castAll (some h.family) _, covers.inFamily h.family h.bins.kind⟩

end Covers

theorem bareAxes_of_ofParts (plain : r.Plain) {axes : List Axis} {bins : Bins} {family : Family}
    (done : ofParts r axes bins family = .ok h) : h.bareAxes = axes :=
  plain.axes_of_cast (ofParts_eq_ok done).1

end Histogram
end Binning
