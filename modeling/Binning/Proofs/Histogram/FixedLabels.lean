import Binning.Proofs.Axis.FixedLabels
import Binning.Proofs.Histogram.Cuts
import Binning.Proofs.Histogram.Failures
import Binning.Proofs.Histogram.Totals

/-! Overflow bins of fixed labels stay empty. An entry is never placed in one, and
whatever grows, cuts, sums, projects or adds histograms sends nothing there but
what comes from another. -/
namespace Binning.Histogram
open Results Reduction

/-- Counts behind fixed labels are zero. -/
def Unfilled (h : Histogram) : Prop :=
  h.bins.kind.isIntegral = true → ∀ is, h.Addresses is → Axis.AnyUnlisted h.bareAxes is →
    h.bins.tally (h.place is) = 0

variable {r : Registry} {h g : Histogram} {routes : List Route} {order : List Nat}

theorem unfilled_of_empty (empty : h.bins = .empty h.bins.kind h.bins.length) : h.Unfilled := by
  intro integral is _ _
  apply Bins.tally_of_get
  rw [empty, Bins.get_empty, StorageKind.zero_of_isIntegral integral]

/-! ### Entries -/

section
variable {placements : List Axis.Placement}

theorem Unfilled.enter (unfilled : h.Unfilled) (sound : h.Sound)
    (same : placements.length = h.rank)
    (listed : ¬ Axis.AnyUnlisted h.bareAxes (placements.map (·.index)))
    (weight sample : Option Float) :
    { h with bins := h.enter placements weight sample }.Unfilled := by
  intro integral is has unlisted
  rw [kind_enter] at integral
  have elsewhere : is ≠ placements.map (·.index) := by
    rintro rfl
    exact listed unlisted
  have apart := Bins.not_unlimited_of_isIntegral integral
  change ((h.enter placements weight sample).get (h.place is)).tally = 0
  rw [sound.get_enter apart same weight sample has, if_neg elsewhere]
  exact unfilled integral is has unlisted

/-- No entry is placed behind fixed labels, also when other axes grow for it. -/
theorem Placed.not_anyUnlisted {family : Family} {axes news : List ClassedAxis}
    (placed : Placed r family axes placements news routes) (keeps : r.KeepsShape)
    (made : ∀ a ∈ axes, a.axis.Made) (fits : ∀ a ∈ axes, a.axis.Fits) :
    ¬ Axis.AnyUnlisted (news.map ClassedAxis.axis) (placements.map (·.index)) := by
  induction placed with
  | nil =>
    rintro ⟨_, among, _⟩
    contradiction
  | @cons a new c p route axes news placements routes located grows _ ih =>
    obtain ⟨head, made⟩ := List.forall_mem_cons.mp made
    obtain ⟨fit, fits⟩ := List.forall_mem_cons.mp fits
    rintro ⟨ai, among, unlisted⟩
    rcases List.mem_cons.mp among with rfl | among
    · obtain ⟨_, _, options, _, _, _, ⟨_, rfl, _⟩ | ⟨_, grown⟩⟩ :=
        shape_of_growAxis keeps head located grows
      · exact Axis.not_unlisted_of_locate fit located unlisted
      · refine Axis.not_unlisted_of_growth ?_ unlisted
        rw [options]
        exact Axis.growth_of_locate located grown
    · exact ih made fits ⟨ai, among, unlisted⟩

theorem Placed.spares {family : Family} {axes news : List ClassedAxis}
    (placed : Placed r family axes placements news routes) (keeps : r.KeepsShape)
    (made : ∀ a ∈ axes, a.axis.Made) (fits : ∀ a ∈ axes, a.axis.Fits) :
    List.Forall₂ (fun a r => Route.SparesOverflow a r) (axes.map ClassedAxis.axis) routes := by
  induction placed with
  | nil => exact .nil
  | cons located grows _ ih =>
    obtain ⟨head, made⟩ := List.forall_mem_cons.mp made
    obtain ⟨fit, fits⟩ := List.forall_mem_cons.mp fits
    exact .cons (sparesOverflow_growAxis keeps head fit located grows) (ih made fits)

theorem Sound.not_anyUnlisted {coords : List Coord} (sound : h.Sound)
    (located : h.locate coords = .ok placements) (stays : ∀ p ∈ placements, p.grown = none)
    (keeps : r.KeepsShape) : ¬ Axis.AnyUnlisted h.bareAxes (placements.map (·.index)) := by
  obtain ⟨same, located⟩ := locate_eq_ok.mp located
  have placed : Placed r h.family h.axes placements h.axes (h.axes.map fun a => .identity a.axis) :=
    placed_of_located same located stays
  exact placed.not_anyUnlisted keeps sound.made sound.fits_classed

end

/-! ### Moves -/

section
variable (unfilled : h.Unfilled) (sound : h.Sound)
  (lands : List.Forall₂ (fun a r => Route.Lands a r) h.bareAxes routes)
  (spares : List.Forall₂ (fun a r => Route.SparesOverflow a r) h.bareAxes routes)
include unfilled sound lands spares

theorem Unfilled.tally_gathered (integral : h.bins.kind.isIntegral = true)
    (kept : ∀ a ∈ Reduction.axes routes order, a.Fits) {ks : List Int}
    (has : Axis.Addresses (Reduction.axes routes order) ks)
    (unlisted : Axis.AnyUnlisted (Reduction.axes routes order) ks) :
    (h.gathered routes order).tally (Axis.place (Reduction.axes routes order) ks) = 0 := by
  have none_sent : ∀ p ∈ Finset.range h.bins.length,
      (if target h.extents ((Reduction.axes routes order).map Axis.extent) routes order p =
        some (Axis.place (Reduction.axes routes order) ks) then h.bins.tally p else 0) = 0 := by
    intro p among
    have below := Finset.mem_range.mp among
    split
    · rename_i sent
      have source := anyUnlisted_of_target lands spares sound.fits kept (sound.length ▸ below) has
        sent unlisted
      rw [← sound.place_indicesAt below]
      exact unfilled integral _ (sound.addresses_indicesAt below) source
    · rfl
  refine (Bins.tally_gather integral (Axis.place_lt kept has)).trans ?_
  rw [Finset.sum_eq_zero none_sent]
  exact h.bins.kind.hold_of_lt (by decide)

theorem Unfilled.of_gathered (bins : g.bins = h.gathered routes order)
    (shapes : List.Forall₂ Axis.SameShape (Reduction.axes routes order) g.bareAxes)
    (fits : ∀ a ∈ g.bareAxes, a.Fits) : g.Unfilled := by
  intro integral is has unlisted
  rw [bins, kind_gathered] at integral
  have kept := Axis.fits_of_sameShape shapes fits
  have moved := (Axis.addresses_of_sameShape shapes).mpr has
  have same : g.place is = Axis.place (Reduction.axes routes order) is :=
    (Axis.place_of_sameShape shapes is).symm
  rw [bins, same]
  refine unfilled.tally_gathered sound lands spares integral kept moved (unlisted.imp ?_)
  exact shapes.flip.imp fun _ _ shape _ here => here.of_sameShape shape

theorem Unfilled.reduce (keeps : r.KeepsShape) (reduced : g.Sound)
    (done : h.reduce r routes order = .ok (.histogram g)) : g.Unfilled := by
  by_cases none_stay : Reduction.axes routes order = []
  · rw [reduce_of_none_stay none_stay] at done
    cases done
  · rw [reduce_of_some_stay none_stay] at done
    obtain ⟨_, parts, same⟩ := map_eq_ok.mp done
    cases same
    obtain ⟨cast, bins, _⟩ := ofParts_eq_ok parts
    refine unfilled.of_gathered sound lands spares bins ?_ reduced.fits
    exact List.forall₂_map_right_iff.mpr
      (cast.imp fun _ _ done => ClassedAxis.axis_of_cast keeps done)

end

/-! ### Operations -/

theorem Unfilled.grow (unfilled : h.Unfilled) (sound : h.Sound) (keeps : r.KeepsShape)
    {coords : List Coord} {placements : List Axis.Placement}
    (located : h.locate coords = .ok placements) (grows : h.grow r placements = .ok g)
    (grown : g.Sound) :
    g.Unfilled ∧ ¬ Axis.AnyUnlisted g.bareAxes (placements.map (·.index)) := by
  obtain ⟨routes, placed, same⟩ := grow_eq_ok located grows
  have shapes := placed.sameShape keeps sound.made
  have lands := placed.lands keeps sound.made (Axis.fits_of_sameShape shapes grown.fits)
  have spares := placed.spares keeps sound.made sound.fits_classed
  have length : routes.length = h.rank := placed.length_eq.2.2
  refine ⟨?_, placed.not_anyUnlisted keeps sound.made sound.fits_classed⟩
  have bins : g.bins = h.gathered routes (List.range routes.length) := by
    rw [same, length, gathered_range length]
  refine unfilled.of_gathered sound lands spares bins ?_ grown.fits
  rw [axes_range]
  exact shapes

theorem Unfilled.record (unfilled : h.Unfilled) (sound : h.Sound) (keeps : r.KeepsShape)
    {coords : List Coord} {weight sample : Option Float}
    (done : h.record r coords weight sample = .ok g) (allocated : g.Allocated) : g.Unfilled := by
  obtain ⟨_, placements, grown, located, grows, rfl⟩ := record_eq_ok done
  have same := length_of_locate located
  rcases grows with ⟨rfl, stays⟩ | grows
  · exact unfilled.enter sound same (sound.not_anyUnlisted located stays keeps) _ _
  · have rank := rank_of_grow located grows
    have grown_sound := sound.grow keeps located grows allocated
    obtain ⟨kept, listed⟩ := unfilled.grow sound keeps located grows grown_sound
    exact kept.enter grown_sound (same.trans rank.symm) listed _ _

theorem Unfilled.fill (unfilled : h.Unfilled) (sound : h.Sound) (keeps : r.KeepsShape)
    {coords : List Coord} {weight sample : Option Float}
    (allocated : (h.fill r coords weight sample).state.Allocated) :
    (h.fill r coords weight sample).state.Unfilled := by
  unfold Histogram.fill at *
  cases done : h.record r coords weight sample with
  | ok =>
    rw [done] at allocated
    exact unfilled.record sound keeps done allocated
  | error => exact unfilled

theorem Unfilled.fillAll (unfilled : h.Unfilled) (sound : h.Sound) (keeps : r.KeepsShape)
    (coords : List (List Coord)) (allocated : (h.fillAll r coords).state.Allocated) :
    (h.fillAll r coords).state.Unfilled := by
  induction coords generalizing h with
  | nil => exact unfilled
  | cons first rest ih =>
    cases done : h.record r first with
    | error =>
      rw [fillAll_of_error done]
      exact unfilled
    | ok recorded =>
      rw [fillAll_of_ok done] at allocated ⊢
      have larger := volume_le_of_fillAll (larger_of_record sound.made keeps done).1 keeps rest
      have between := Nat.lt_of_le_of_lt larger allocated
      exact ih (unfilled.record sound keeps done between) (sound.record keeps done between)
        allocated

theorem Unfilled.fillValues (unfilled : h.Unfilled) (sound : h.Sound) (keeps : r.KeepsShape)
    {values : List Coord} (allocated : (h.fillValues r values).state.Allocated) :
    (h.fillValues r values).state.Unfilled := by
  unfold Histogram.fillValues at *
  split
  · exact unfilled
  · rename_i one
    rw [if_neg one] at allocated
    exact unfilled.fillAll sound keeps _ allocated

theorem Unfilled.fillShared (unfilled : h.Unfilled) (sound : h.Sound) (coords : List Coord) :
    (h.fillShared coords).state.Unfilled := by
  unfold Histogram.fillShared
  cases done : h.recordShared coords with
  | error => exact unfilled
  | ok =>
    obtain ⟨_, fixed, placements, located, rfl⟩ := recordShared_eq_ok done
    have stays : ∀ p ∈ placements, p.grown = none := by
      intro p among
      obtain ⟨a, listed, c, placed⟩ := exists_located located among
      obtain ⟨classed, there, rfl⟩ := mem_bareAxes.mp listed
      rw [Option.eq_none_iff_forall_not_mem]
      intro new grows
      have growth := Axis.growth_of_locate placed grows
      rw [fixed classed there] at growth
      contradiction
    exact unfilled.enter sound (length_of_locate located)
      (sound.not_anyUnlisted located stays Registry.builtin_keepsShape) _ _

theorem Unfilled.index (unfilled : h.Unfilled) (sound : h.Sound) (keeps : r.KeepsShape)
    {entries : List Index} (done : h.index r entries = .ok (.histogram g)) : g.Unfilled := by
  obtain ⟨expanded, routes, expand, routed, reduced⟩ := index_eq_ok done
  have same : expanded.length = h.bareAxes.length :=
    (Index.expands_of_expand expand).length.trans (length_bareAxes h).symm
  have lands := (fitting_routes same sound.made_bare sound.fits routed).imp fun _ _ fit => fit.lands
  have spares := forall₂_of_routed same
    (fun a among _ _ route => Route.sparesOverflow_route (sound.fits a among) route) routed
  exact unfilled.reduce sound lands spares keeps (sound.index keeps done) reduced

theorem Unfilled.project (unfilled : h.Unfilled) (sound : h.Sound) (keeps : r.KeepsShape)
    {kept : List Nat} (done : h.project r kept = .ok g) : g.Unfilled := by
  have lands : List.Forall₂ (fun a r => Route.Lands a r) h.bareAxes (projections h.bareAxes kept) :=
    forall₂_projections kept (fun _ _ => Route.lands_identity) fun _ _ => Route.lands_fold _
  have spares := forall₂_projections (P := fun a r => Route.SparesOverflow a r) kept
    (fun a among => Route.sparesOverflow_identity (sound.fits a among))
    fun a _ => Route.sparesOverflow_fold a _
  exact unfilled.reduce sound lands spares keeps (sound.project keeps done) (reduce_of_project done)

theorem Unfilled.add (unfilled : h.Unfilled) (sound : h.Sound) {total : Histogram}
    (others : g.Unfilled) (other_sound : g.Sound) (done : h.add g = .ok total) :
    total.Unfilled := by
  obtain ⟨axes, storage, rfl⟩ := add_eq_ok.mp done
  intro integral is has unlisted
  rw [Bins.kind_addAll] at integral
  have kind : g.bins.kind = h.bins.kind := by rw [← other_sound.kind, ← sound.kind, storage]
  have slots := ClassedAxis.sameSlots_of_beq axes
  have place : g.place is = h.place is := (Axis.place_of_sameSlots slots is).symm
  have there := others (kind ▸ integral) is ((Axis.addresses_of_sameSlots slots).mp has)
    (unlisted.of_beq axes)
  have length : g.bins.length = h.bins.length := by
    rw [sound.length, other_sound.length]
    exact congrArg Layout.volume (Axis.extents_of_sameSlots slots).symm
  change (h.bins.addAll g.bins).tally (h.place is) = 0
  rw [Bins.tally_addAll integral kind length (sound.place_lt has), unfilled integral is has unlisted,
    ← place, there]
  exact h.bins.kind.hold_of_lt (by decide)

theorem Unfilled.scale (unfilled : h.Unfilled) (factor : Float) :
    (h.scale factor).state.Unfilled := by
  unfold Histogram.scale
  cases done : h.bins.scale factor with
  | error => exact unfilled
  | ok bins =>
    intro integral
    have counts : h.bins.kind.isIntegral = true := (Bins.length_scale done).2 ▸ integral
    have refused : h.bins.scale factor = .error (.scaling h.bins.kind) :=
      Bins.scale_eq_error.mpr ⟨counts, rfl⟩
    cases done.symm.trans refused

/-! ### Every histogram -/

theorem Reachable.unfilled (reachable : h.Reachable) : h.Unfilled := by
  induction reachable with
  | new _ _ done =>
    simp only [Histogram.new, guard_eq_ok, bind_eq_ok, mapM_eq_ok, pure_eq_ok] at done
    obtain ⟨_, _, _, _, _, rfl⟩ := done
    exact unfilled_of_empty (by simp)
  | fill before keeps allocated unfilled => exact unfilled.fill before.sound keeps allocated
  | fillAll before keeps allocated unfilled =>
    exact unfilled.fillAll before.sound keeps _ allocated
  | fillValues before keeps allocated unfilled =>
    exact unfilled.fillValues before.sound keeps allocated
  | fillShared coords before unfilled => exact unfilled.fillShared before.sound coords
  | index before keeps done unfilled => exact unfilled.index before.sound keeps done
  | project before keeps done unfilled => exact unfilled.project before.sound keeps done
  | add before others done unfilled other_unfilled =>
    exact unfilled.add before.sound other_unfilled others.sound done
  | scale factor _ unfilled => exact unfilled.scale factor
  | reset => exact unfilled_of_empty (by simp [Histogram.reset, Bins.reset])

/-- In a histogram of counts the overflow bin of fixed labels is empty, together with
any bins of the other axes. -/
theorem Reachable.unlisted_empty (reachable : h.Reachable)
    (integral : h.storage.kind.isIntegral = true) {is : List Int} (has : h.Addresses is)
    (unlisted : Axis.AnyUnlisted h.bareAxes is) : h.contentAt is = .ok (.count 0) := by
  have counts : h.bins.kind.isIntegral = true := reachable.sound.kind ▸ integral
  rw [contentAt_of_addresses has, Bins.get_eq_count counts,
    reachable.unfilled counts is has unlisted]

/-- The third of the entries was for a label that is not among those of the axis. -/
theorem unlisted_empty_labelledEntries :
    labelledEntries.Addresses [2, 2] ∧ Axis.AnyUnlisted labelledEntries.bareAxes [2, 2] ∧
      labelledEntries.contentAt [2, 2] = .ok (.count 0) := by
  have has : labelledEntries.Addresses [2, 2] := by decide +kernel
  have unlisted : Axis.AnyUnlisted labelledEntries.bareAxes [2, 2] :=
    ⟨_, List.mem_cons_of_mem _ List.mem_cons_self, rfl, .texts ["a", "b"], rfl, rfl⟩
  exact ⟨has, unlisted, reachable_labelledEntries.unlisted_empty rfl has unlisted⟩

end Binning.Histogram
