import Binning.Proofs.Histogram.Places
import Binning.Proofs.Histogram.Reachable

/-! No operation leaves the bins. Tuples of indices and positions are in
bijection in every histogram that can be reached, axis by axis and as a whole,
and whatever is filled, read, viewed or indexed is at a position in the bins. -/
namespace Binning.Histogram
open Results

/-- A move along the routes reads positions whose slots the axes have, and it
writes to positions in the new bins, of which there is at least one. -/
def MovesInBounds (h : Histogram) (routes : List Route) : Prop :=
  let kept := (Reduction.axes routes (List.range h.rank)).map Axis.extent
  let moved := (Reduction.gather h.bins h.extents routes (List.range h.rank)).2
  0 < moved.length ∧ ∀ p < h.bins.length, Layout.Inside h.extents (Layout.tuple h.extents p) ∧
    ∀ j, Reduction.target h.extents kept routes (List.range h.rank) p = some j → j < moved.length

/-- The layout of a histogram and the positions its operations use. -/
structure InBounds (h : Histogram) : Prop where
  extent_pos : ∀ a ∈ h.bareAxes, 1 ≤ a.extent
  length : h.bins.length = Layout.volume h.extents
  slots : ∀ a ∈ h.bareAxes,
    Set.BijOn a.slot {i | a.representable i = true} (Set.Iio a.extent) ∧
      Set.InvOn a.indexOfSlot a.slot {i | a.representable i = true} (Set.Iio a.extent)
  places : Set.BijOn h.place {indices | h.Addresses indices} (Set.Iio h.bins.length) ∧
    Set.InvOn h.indicesAt h.place {indices | h.Addresses indices} (Set.Iio h.bins.length)
  /-- An entry is recorded in the bins, before growth and after it. -/
  fills : ∀ (r : Registry) (coords : List Coord) (placements : List Axis.Placement)
    (grown : Histogram), r.KeepsShape → h.locate coords = .ok placements →
    (grown = h ∨ h.grow r placements = .ok grown ∧ grown.Allocated) →
    ∀ j, grown.position? placements = some j → j < grown.bins.length
  growths : ∀ (r : Registry) (coords : List Coord) (placements : List Axis.Placement)
    (pairs : List (ClassedAxis × Route)), r.KeepsShape → h.locate coords = .ok placements →
    (h.axes.zip placements).mapM (fun ap => growAxis r h.family ap.1 ap.2) = .ok pairs →
    Layout.volume (pairs.map (·.1.axis.extent)) < 2 ^ 63 → h.MovesInBounds (pairs.map (·.2))
  /-- What is read at a tuple is in the bins, and nothing else can be read. -/
  reads : ∀ indices, (h.Addresses indices → h.place indices < h.bins.length) ∧
    ∀ cell, h.contentAt indices = .ok cell ↔
      h.Addresses indices ∧ h.bins.get (h.place indices) = cell
  /-- A view is always there and copies positions in the bins. -/
  views : ∀ flow, ∃ shape, ∃ positions : List Nat,
    h.view flow = .ok ⟨shape, positions.map h.bins.get⟩ ∧
      positions.length = Layout.volume shape ∧ ∀ p ∈ positions, p < h.bins.length
  indexes : ∀ (entries expanded : List Index) (routes : List Route),
    Index.expand entries h.rank = .ok expanded →
    (h.bareAxes.zip expanded).mapM (fun ae => Index.route ae.1 ae.2) = .ok routes →
    h.MovesInBounds routes

variable {h : Histogram}

theorem slot_invOn {a : Axis} (fits : a.Fits) :
    Set.InvOn a.indexOfSlot a.slot {i | a.representable i = true} (Set.Iio a.extent) :=
  ⟨fun _ has => fits.indexOfSlot_slot has, fun _ below => fits.slot_indexOfSlot below⟩

theorem slot_bijOn {a : Axis} (fits : a.Fits) :
    Set.BijOn a.slot {i | a.representable i = true} (Set.Iio a.extent) :=
  (slot_invOn fits).bijOn (fun _ has => fits.slot_lt has)
    (fun _ below => fits.representable_indexOfSlot below)

theorem Sound.position?_lt (sound : h.Sound) {placements : List Axis.Placement}
    (same : placements.length = h.rank) {j : Nat} (found : h.position? placements = some j) :
    j < h.bins.length := by
  obtain ⟨has, rfl⟩ := (position?_eq_some_iff same).mp found
  exact sound.place_lt has

/-- The bins in range are inside the extents, behind the underflow bins. -/
theorem inside_inner {axes : List Axis} {slots : List Nat}
    (inside : Layout.Inside (axes.map Axis.size) slots) :
    Layout.Inside (axes.map Axis.extent)
      (List.zipWith (· + ·) (axes.map (·.options.underflow.toNat)) slots) := by
  induction axes generalizing slots with
  | nil =>
    cases inside
    exact .nil
  | cons a axes ih =>
    cases inside with
    | cons below inside =>
      refine .cons ?_ (ih inside)
      rw [a.extent_eq]
      simp only
      omega

theorem Sound.view_true (sound : h.Sound) : h.view true = .ok ⟨h.extents, h.bins.cells⟩ := by
  rw [view, if_neg (not_not.mpr sound.length), if_pos rfl]
  rfl

theorem Sound.view_false (sound : h.Sound) :
    h.view false = .ok ⟨h.bareAxes.map Axis.size,
      (Layout.tuples (h.bareAxes.map Axis.size)).map fun slots =>
        h.bins.get (Layout.position h.extents
          (List.zipWith (· + ·) (h.bareAxes.map (·.options.underflow.toNat)) slots))⟩ := by
  rw [view, if_neg (not_not.mpr sound.length), if_neg (by decide)]
  rfl

theorem Sound.view_eq (sound : h.Sound) (flow : Bool) :
    ∃ shape, ∃ positions : List Nat, h.view flow = .ok ⟨shape, positions.map h.bins.get⟩ ∧
      positions.length = Layout.volume shape ∧ ∀ p ∈ positions, p < h.bins.length := by
  cases flow with
  | true =>
    refine ⟨h.extents, List.range h.bins.length, sound.view_true, ?_, ?_⟩
    · exact List.length_range.trans sound.length
    · intro p among
      exact List.mem_range.mp among
  | false =>
    let sizes := h.bareAxes.map Axis.size
    let first := h.bareAxes.map (·.options.underflow.toNat)
    refine ⟨sizes, (Layout.tuples sizes).map fun slots =>
      Layout.position h.extents (List.zipWith (· + ·) first slots), ?_, ?_, ?_⟩
    · rw [sound.view_false, List.map_map]
      rfl
    · rw [List.length_map, Layout.length_tuples]
    · intro p among
      obtain ⟨slots, listed, rfl⟩ := List.mem_map.mp among
      rw [sound.length]
      exact (inside_inner (Layout.mem_tuples.mp listed)).position_lt

theorem Sound.movesInBounds (sound : h.Sound) {routes : List Route}
    (lands : List.Forall₂ (fun a r => Route.Lands a r) h.bareAxes routes)
    (slots : 0 ∉ (Reduction.axes routes (List.range h.rank)).map Axis.extent) :
    h.MovesInBounds routes := by
  simp only [MovesInBounds, Reduction.gather, Bins.length_gather]
  refine ⟨Layout.volume_pos slots, fun p below => ?_⟩
  rw [sound.length] at below
  have within := Reduction.landsWithin_extents lands
  exact ⟨Layout.inside_tuple below, fun j sent => Reduction.target_lt within below sent⟩

theorem Sound.index_inBounds (sound : h.Sound) {entries expanded : List Index}
    {routes : List Route} (expand : Index.expand entries h.rank = .ok expanded)
    (routed : (h.bareAxes.zip expanded).mapM (fun ae => Index.route ae.1 ae.2) = .ok routes) :
    h.MovesInBounds routes := by
  have same : expanded.length = h.bareAxes.length :=
    (Index.expands_of_expand expand).length.trans (List.length_map _).symm
  have fitting := fitting_routes same sound.made_bare sound.fits (mapM_eq_ok.mp routed)
  have made := (axes_of_fitting sound fitting List.nodup_range
    fun d among => List.mem_range.mp among).1
  exact sound.movesInBounds (fitting.imp fun _ _ fit => fit.lands) (zero_not_mem_of_made made)

theorem Sound.growth_inBounds (sound : h.Sound) {r : Registry} (keeps : r.KeepsShape)
    {coords : List Coord} {placements : List Axis.Placement} {pairs : List (ClassedAxis × Route)}
    (located : h.locate coords = .ok placements)
    (grows : (h.axes.zip placements).mapM (fun ap => growAxis r h.family ap.1 ap.2) = .ok pairs)
    (small : Layout.volume (pairs.map (·.1.axis.extent)) < 2 ^ 63) :
    h.MovesInBounds (pairs.map (·.2)) := by
  obtain ⟨same, located⟩ := locate_eq_ok.mp located
  have placed := placed_of_grown same located (mapM_eq_ok.mp grows)
  have shapes := placed.sameShape keeps sound.made
  have made : ∀ a ∈ (pairs.map (·.1)).map ClassedAxis.axis, a.Made := by
    intro a among
    obtain ⟨c, listed, rfl⟩ := List.mem_map.mp among
    exact placed.made keeps sound.made c listed
  have fits := fits_of_volume made (by rwa [List.map_map, List.map_map])
  have lands := placed.lands keeps sound.made (Axis.fits_of_sameShape shapes fits)
  refine sound.movesInBounds lands ?_
  rw [rank, ← placed.length_eq.2.2, Reduction.axes_range, Axis.extents_of_sameShape shapes]
  exact zero_not_mem_of_made made

/-- Every histogram that can be reached keeps to its bins. -/
theorem Reachable.inBounds (reachable : h.Reachable) : h.InBounds := by
  have sound := reachable.sound
  constructor
  case extent_pos =>
    intro a among
    exact Axis.extent_pos (sound.sized a among)
  case length => exact sound.length
  case slots =>
    intro a among
    have fits := sound.fits a among
    exact ⟨slot_bijOn fits, slot_invOn fits⟩
  case places => exact ⟨sound.place_bijOn, sound.place_invOn⟩
  case fills =>
    intro r coords placements grown keeps located grows j found
    rcases grows with rfl | ⟨grows, allocated⟩
    · exact sound.position?_lt (length_of_locate located) found
    · have same := (length_of_locate located).trans (rank_of_grow located grows).symm
      exact (sound.grow keeps located grows allocated).position?_lt same found
  case growths =>
    intro r coords placements pairs keeps located grows small
    exact sound.growth_inBounds keeps located grows small
  case reads =>
    intro indices
    exact ⟨sound.place_lt, fun cell => contentAt_eq_ok⟩
  case views => exact sound.view_eq
  case indexes =>
    intro entries expanded routes expand routed
    exact sound.index_inBounds expand routed

/-- An entry that grows one axis and not the other. -/
theorem inBounds_growingPair : InBounds (growingPair.fill .builtin [.int 3, .int 0]).state := by
  apply Reachable.inBounds
  exact .fill reachable_growingPair Registry.builtin_keepsShape (by decide +kernel)

end Binning.Histogram
