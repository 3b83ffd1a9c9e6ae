import Binning.Proofs.Histogram.Additivity
import Binning.Proofs.Histogram.Places
import Binning.Proofs.Histogram.Summing
import Binning.Proofs.Index.Full
import Binning.Proofs.Storage.Unmoved

/-! Full ranges of all axes. Whatever stands for them, an ellipsis or bounds that
come to the ends, the histogram that is left compares equal to the one before. -/
namespace Binning.Histogram
open Results Reduction

/-! ### Axes and counts -/

/-- The histogram has an axis, and its counts are words. -/
structure Populated (h : Histogram) : Prop where
  axes : 0 < h.rank
  counted : h.bins.Counted

variable {r : Registry} {h g : Histogram}

theorem populated_new {axes : List ClassedAxis} {kind : StorageKind} {family : Family}
    (done : Histogram.new r axes kind family = .ok h) : h.Populated := by
  simp only [Histogram.new, guard_eq_ok, bind_eq_ok, mapM_eq_ok, pure_eq_ok] at done
  obtain ⟨some_axis, classed, cast, storage, _, rfl⟩ := done
  refine ⟨?_, Bins.counted_empty ..⟩
  change 0 < classed.length
  rw [← cast.length_eq, List.length_pos_iff]
  simpa using some_axis

theorem Populated.enter (populated : h.Populated) (placements : List Axis.Placement)
    (weight sample : Option Float) :
    { h with bins := h.enter placements weight sample }.Populated := by
  refine ⟨populated.axes, ?_⟩
  unfold Histogram.enter
  split
  · exact populated.counted.record ..
  · exact populated.counted

theorem Populated.record (populated : h.Populated) {coords : List Coord}
    {weight sample : Option Float} (done : h.record r coords weight sample = .ok g) :
    g.Populated := by
  obtain ⟨_, placements, grown, located, grows, rfl⟩ := record_eq_ok done
  rcases grows with ⟨rfl, _⟩ | grows
  · exact populated.enter ..
  · obtain ⟨_, _, same⟩ := grow_eq_ok located grows
    refine Populated.enter ⟨rank_of_grow located grows ▸ populated.axes, ?_⟩ ..
    exact same ▸ Bins.counted_gather ..

theorem Populated.fill (populated : h.Populated) (coords : List Coord)
    (weight sample : Option Float) : (h.fill r coords weight sample).state.Populated := by
  unfold Histogram.fill
  cases done : h.record r coords weight sample with
  | ok => exact populated.record done
  | error => exact populated

theorem Populated.fillAll (populated : h.Populated) (coords : List (List Coord)) :
    (h.fillAll r coords).state.Populated := by
  induction coords generalizing h with
  | nil => exact populated
  | cons first rest ih =>
    cases done : h.record r first with
    | ok =>
      rw [fillAll_of_ok done]
      exact ih (populated.record done)
    | error =>
      rw [fillAll_of_error done]
      exact populated

theorem Populated.fillValues (populated : h.Populated) (values : List Coord) :
    (h.fillValues r values).state.Populated := by
  unfold Histogram.fillValues
  split
  · exact populated
  · exact populated.fillAll _

theorem Populated.fillShared (populated : h.Populated) (coords : List Coord) :
    (h.fillShared coords).state.Populated := by
  unfold Histogram.fillShared
  cases done : h.recordShared coords with
  | ok =>
    obtain ⟨_, _, placements, _, rfl⟩ := recordShared_eq_ok done
    exact populated.enter ..
  | error => exact populated

theorem populated_of_reduce {routes : List Route} {order : List Nat}
    (done : h.reduce r routes order = .ok (.histogram g)) : g.Populated := by
  unfold Histogram.reduce Reduction.gather at done
  simp only at done
  split at done
  · cases done
  · rename_i some_stay
    obtain ⟨reduced, parts, same⟩ := map_eq_ok.mp done
    cases same
    obtain ⟨cast, bins, _⟩ := ofParts_eq_ok parts
    refine ⟨?_, bins ▸ Bins.counted_gather ..⟩
    rw [rank, ← cast.length_eq, List.length_pos_iff]
    simpa using some_stay

theorem populated_of_index {entries : List Index} (done : h.index r entries = .ok (.histogram g)) :
    g.Populated := by
  obtain ⟨_, _, _, _, reduced⟩ := index_eq_ok done
  exact populated_of_reduce reduced

theorem populated_of_project {kept : List Nat} (done : h.project r kept = .ok g) :
    g.Populated := by
  simp only [Histogram.project, guard_eq_ok, bind_eq_ok, mapError_eq_ok] at done
  obtain ⟨_, _, _, out, reduced, done⟩ := done
  split at done
  · cases done
    exact populated_of_reduce reduced
  · cases done

theorem Populated.add (populated : h.Populated) {total : Histogram}
    (done : h.add g = .ok total) : total.Populated := by
  unfold Histogram.add at done
  rw [ite_throw_eq_ok, pure_eq_ok] at done
  obtain ⟨_, rfl⟩ := done
  exact ⟨populated.axes, populated.counted.addAll _⟩

theorem Populated.scale (populated : h.Populated) (factor : Float) :
    (h.scale factor).state.Populated := by
  unfold Histogram.scale
  cases done : h.bins.scale factor with
  | ok => exact ⟨populated.axes, Bins.counted_of_scale done⟩
  | error => exact populated

theorem Reachable.populated (reachable : h.Reachable) : h.Populated := by
  induction reachable with
  | new _ _ done => exact populated_new done
  | fill _ _ _ populated => exact populated.fill ..
  | fillAll _ _ _ populated => exact populated.fillAll _
  | fillValues _ _ _ populated => exact populated.fillValues _
  | fillShared coords _ populated => exact populated.fillShared coords
  | index _ _ done => exact populated_of_index done
  | project _ _ done => exact populated_of_project done
  | add _ _ done populated => exact populated.add done
  | scale factor _ populated => exact populated.scale factor
  | reset _ populated => exact ⟨populated.axes, Bins.counted_empty ..⟩

/-! ### The same again -/

/-- Equal to the histogram: the same axes, with their options and labels, and
equal contents, those of the flow bins too. -/
structure Repeats (h g : Histogram) : Prop where
  equal : (g == h) = true
  axes : g.bareAxes = h.bareAxes
  contents : ∀ is, h.Addresses is → ∃ x y,
    g.contentAt is = .ok x ∧ h.contentAt is = .ok y ∧ (x == y) = true

theorem selfEqual_of_beq (same : (h == h) = true) : SelfEqual h.bareAxes := by
  obtain ⟨axes, _⟩ := Bool.and_eq_true_iff.mp (Bool.and_eq_true_iff.mp same).1
  intro a among
  obtain ⟨c, listed, rfl⟩ := mem_bareAxes.mp among
  exact beq_self_of_mem axes c listed

theorem repeats_of_cells (sound : h.Sound) (axes : g.bareAxes = h.bareAxes)
    (kind : g.storage.kind = h.storage.kind) (bins : g.bins.kind = h.bins.kind)
    (length : g.bins.length = h.bins.length) (selfEqual : SelfEqual h.bareAxes)
    (cells : ∀ p < h.bins.length, (g.bins.get p == h.bins.get p) = true) : h.Repeats g := by
  refine ⟨?_, axes, fun is has => ?_⟩
  · have storage : (g.storage == h.storage) = (g.storage.kind == h.storage.kind) := rfl
    change (g.axes == h.axes && g.storage == h.storage && g.bins == h.bins) = true
    rw [axes_beq axes.symm (axes ▸ selfEqual), storage, kind, beq_self_eq_true,
      Bins.beq_of_cells bins length cells]
    rfl
  · have taken : g.Addresses is := by rwa [Addresses, axes]
    have place : g.place is = h.place is := congrArg (Axis.place · is) axes
    refine ⟨_, _, contentAt_of_addresses taken, contentAt_of_addresses has, ?_⟩
    rw [place]
    exact cells _ (sound.place_lt has)

/-- The routes of full ranges. -/
def wholes (h : Histogram) : List Route := h.bareAxes.map .whole

@[simp] theorem stay_wholes (h : Histogram) : stay h.wholes = h.bareAxes := stay_whole h.bareAxes

section
variable (sound : h.Sound)
include sound

theorem Sound.moved_wholes :
    h.moved h.wholes = h.bins.gather h.bins.length (along h.bareAxes h.wholes) := by
  rw [moved, stay_wholes, sound.length]
  rfl

variable (starts : ∀ a ∈ h.bareAxes, a.StartsSigned)
include starts

theorem Sound.routes_full {entries expanded : List Index}
    (expand : Index.expand entries h.rank = .ok expanded)
    (full : List.Forall₂ Index.Full h.bareAxes expanded) :
    Index.routes h.bareAxes entries = .ok h.wholes := by
  unfold Index.routes
  rw [length_bareAxes, expand]
  exact Index.mapM_route_full sound.sized sound.fits starts full

/-- Every position is sent to itself. -/
theorem Sound.along_wholes {p : Nat} (below : p < h.bins.length) :
    along h.bareAxes h.wholes p = some p := by
  have kept : ∀ a ∈ stay h.wholes, a.Fits := (stay_wholes h).symm ▸ sound.fits
  have lands : List.Forall₂ (fun a r => Route.Lands a r) h.bareAxes h.wholes :=
    lands_whole sound.fits
  rw [along_eq_some_iff lands sound.fits kept (sound.length ▸ below)]
  refine ⟨_, (goes_whole_iff sound.sized sound.fits starts (sound.addresses_indicesAt below)).mpr rfl, ?_⟩
  rw [stay_wholes]
  exact sound.place_indicesAt below

/-- So every cell comes back as it was, up to the sign of a zero. -/
theorem Sound.alike_moved_wholes (counted : h.bins.Counted)
    (unsampled : h.storage.kind.takesSample = false) {p : Nat} (below : p < h.bins.length) :
    ((h.moved h.wholes).get p).Alike (h.bins.get p) := by
  rw [sound.moved_wholes]
  exact Bins.alike_gather_self sound.words counted (sound.kind ▸ unsampled)
    (fun _ inside => sound.along_wholes starts inside) below

end

/-- Full ranges of all axes leave a histogram that is equal to the one before. -/
theorem Reachable.index_full (reachable : h.Reachable) (known : r.Known) (plain : r.Plain)
    (same : (h == h) = true) (unsampled : h.storage.kind.takesSample = false)
    (starts : ∀ a ∈ h.bareAxes, a.StartsSigned) {entries expanded : List Index}
    (expand : Index.expand entries h.rank = .ok expanded)
    (full : List.Forall₂ Index.Full h.bareAxes expanded) :
    ∃ g, h.index r entries = .ok (.histogram g) ∧ h.Repeats g := by
  have sound := reachable.sound
  have populated := reachable.populated
  have length : h.wholes.length = h.rank := (List.length_map _).trans (length_bareAxes h)
  have some_stay : stay h.wholes ≠ [] := by
    rw [stay_wholes, ← List.length_pos_iff, length_bareAxes]
    exact populated.axes
  obtain ⟨g, parts⟩ := ofParts_of_covers known.covers (stay h.wholes) (h.moved h.wholes) h.family
  obtain ⟨_, bins, kind, _⟩ := ofParts_eq_ok parts
  refine ⟨g, ?_, repeats_of_cells sound ?_ ?_ ?_ ?_ (selfEqual_of_beq same) fun p below => ?_⟩
  · rw [index_eq_bind, sound.routes_full starts expand full]
    change h.reduce r h.wholes (List.range h.rank) = _
    rw [reduce_range_of_some length some_stay, parts]
    rfl
  · rw [bareAxes_of_ofParts plain parts, stay_wholes]
  · rw [kind, moved, Bins.kind_gather, sound.kind]
  · rw [bins, moved, Bins.kind_gather]
  · rw [bins, sound.moved_wholes, Bins.length_gather]
  · have alike := sound.alike_moved_wholes starts populated.counted unsampled below
    rw [bins]
    exact alike.beq (Bins.get_beq_self (Bool.and_eq_true_iff.mp same).2 below)

/-- Bounds beyond the ends of a small axis, with one bin a group. -/
def beyondEnds : Index := .slice ⟨some (.ofBin (-4)), some (.ofBin 9), some (.rebin 1)⟩

theorem index_full_filledPair :
    Index.expand [beyondEnds, .ellipsis] filledPair.rank = .ok [beyondEnds, .slice {}] ∧
      ∃ g, filledPair.index .builtin [beyondEnds, .ellipsis] = .ok (.histogram g) ∧
        filledPair.Repeats g := by
  have expand : Index.expand [beyondEnds, .ellipsis] filledPair.rank =
      .ok [beyondEnds, .slice {}] := rfl
  have full : List.Forall₂ Index.Full filledPair.bareAxes [beyondEnds, .slice {}] :=
    .cons (.group ⟨-4, rfl, rfl⟩ ⟨9, rfl, rfl⟩) (.cons (Index.full_open _) .nil)
  exact ⟨expand, reachable_filledPair.index_full .builtin Registry.builtin_plain
    (by decide +kernel) rfl (by decide +kernel) expand full⟩

end Binning.Histogram
