import Binning.Proofs.Histogram.Places

/-! Moving contents along routes. What arrives at a tuple of the kept axes is
the merge, in the order of positions, of the cells whose indices go there. -/
namespace Binning.Histogram
open Reduction

/-- The positions whose indices are read for a tuple, in order. -/
def sources (h : Histogram) (reads : List Int → List Int → Bool) (indices : List Int) :
    List Nat :=
  (List.range h.bins.length).filter fun p => reads (h.indicesAt p) indices

variable {h : Histogram}

theorem mem_sources {reads : List Int → List Int → Bool} {indices : List Int} {p : Nat} :
    p ∈ h.sources reads indices ↔ p < h.bins.length ∧ reads (h.indicesAt p) indices = true := by
  simp [sources]

theorem sources_eq_nil {reads : List Int → List Int → Bool} {indices : List Int}
    (nowhere : ∀ p < h.bins.length, ¬ reads (h.indicesAt p) indices = true) :
    h.sources reads indices = [] :=
  List.filter_eq_nil_iff.mpr fun p among => nowhere p (List.mem_range.mp among)

theorem sources_eq_singleton {reads : List Int → List Int → Bool} {indices : List Int} {p : Nat}
    (below : p < h.bins.length)
    (only : ∀ q < h.bins.length, reads (h.indicesAt q) indices = true ↔ q = p) :
    h.sources reads indices = [p] :=
  Bins.filter_range_eq_singleton below only

theorem Sound.get_moved (sound : h.Sound) {routes : List Route}
    (lands : List.Forall₂ (fun a r => Route.Lands a r) h.bareAxes routes)
    (kept : ∀ a ∈ stay routes, a.Fits) (reads : List Int → List Int → Bool)
    (goes : ∀ p < h.bins.length, ∀ ks,
      reads (h.indicesAt p) ks = true ↔ Goes h.bareAxes routes (h.indicesAt p) ks) :
    ∃ turn, h.bins.Turning (h.sources reads) turn ∧
      ∀ ks, Axis.Addresses (stay routes) ks →
        (h.moved routes).get (Axis.place (stay routes) ks) =
          h.bins.mergedWith turn (h.sources reads ks) := by
  have fits := sound.fits
  have volume := sound.length
  -- the positions that are sent to the place of a tuple are those that are read for it
  have same : ∀ ks, Axis.Addresses (stay routes) ks →
      Bins.sources (along h.bareAxes routes) h.bins.length (Axis.place (stay routes) ks) =
        h.sources reads ks := by
    intro ks has
    apply List.filter_congr
    intro p among
    have below := List.mem_range.mp among
    rw [Bool.eq_iff_iff, decide_eq_true_eq, goes p below]
    exact along_eq_place_iff lands fits kept (volume ▸ below) has
  have addressed : ∀ p < h.bins.length, ∀ ks, Goes h.bareAxes routes (h.indicesAt p) ks →
      Axis.Addresses (stay routes) ks :=
    fun p below ks went => went.addresses lands fits kept (sound.addresses_indicesAt below)
  obtain ⟨turn, turning, cells⟩ :=
    Bins.get_gather fun p below j sent => along_lt lands (volume ▸ below) sent
  refine ⟨turn, turning.congr fun p => ?_, fun ks has => ?_⟩
  · constructor
    · rintro ⟨j, among, turns⟩
      obtain ⟨below, sent⟩ := Bins.mem_sources.mp among
      obtain ⟨ks, went, rfl⟩ := (along_eq_some_iff lands fits kept (volume ▸ below)).mp sent
      rw [same ks (addressed p below ks went)] at among turns
      exact ⟨ks, among, turns⟩
    · rintro ⟨ks, among, turns⟩
      obtain ⟨below, read⟩ := mem_sources.mp among
      have went := (goes p below ks).mp read
      rw [← same ks (addressed p below ks went)] at among turns
      exact ⟨_, among, turns⟩
  · rw [← same ks has]
    exact cells _ (Axis.place_lt kept has)

/-! ### Slots that do not depend on each other -/

section Apart
variable {routes : List Route} (sound : h.Sound) (apart : h.bins.kind ≠ .unlimited)
  (lands : List.Forall₂ (fun a r => Route.Lands a r) h.bareAxes routes)
  (kept : ∀ a ∈ stay routes, a.Fits) {is ks : List Int}
include sound apart lands kept

/-- A cell that has its target to itself is merged into an empty slot. -/
theorem Sound.get_moved_of_goes (has : h.Addresses is) (goes : Goes h.bareAxes routes is ks)
    (alone : ∀ js, h.Addresses js → Goes h.bareAxes routes js ks → js = is) :
    (h.moved routes).get (Axis.place (stay routes) ks) =
      h.bins.kind.merge h.bins.kind.zero (h.bins.get (h.place is)) := by
  have addressed := goes.addresses lands sound.fits kept has
  have single : Bins.sources (along h.bareAxes routes) h.bins.length (Axis.place (stay routes) ks) =
      [h.place is] := by
    refine Bins.sources_eq_singleton (sound.place_lt has) ?_ fun q below sent => ?_
    · have back : Axis.indicesAt h.bareAxes (h.place is) = is := sound.indicesAt_place has
      rw [along_eq_place_iff lands sound.fits kept (sound.length ▸ sound.place_lt has) addressed, back]
      exact goes
    · rw [along_eq_place_iff lands sound.fits kept (sound.length ▸ below) addressed] at sent
      rw [← alone _ (sound.addresses_indicesAt below) sent, sound.place_indicesAt below]
  rw [moved, Bins.get_gather_of_apart apart (Axis.place_lt kept addressed), single, Bins.merged_eq_merge apart]
  rfl

/-- A place that no cell goes to is empty. -/
theorem Sound.get_moved_of_nowhere (addressed : Axis.Addresses (stay routes) ks)
    (nowhere : ∀ js, h.Addresses js → ¬ Goes h.bareAxes routes js ks) :
    (h.moved routes).get (Axis.place (stay routes) ks) = h.bins.kind.zero := by
  have none_sent : Bins.sources (along h.bareAxes routes) h.bins.length
      (Axis.place (stay routes) ks) = [] := by
    refine List.filter_eq_nil_iff.mpr fun p among => ?_
    have below := List.mem_range.mp among
    rw [decide_eq_true_eq, along_eq_place_iff lands sound.fits kept (sound.length ▸ below) addressed]
    exact nowhere _ (sound.addresses_indicesAt below)
  rw [moved, Bins.get_gather_of_apart apart (Axis.place_lt kept addressed), none_sent, Bins.merged_eq_merge apart]
  rfl

end Apart

end Binning.Histogram
