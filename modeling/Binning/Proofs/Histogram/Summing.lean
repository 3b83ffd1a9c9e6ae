import Binning.Histogram.Read
import Binning.Proofs.Histogram.Casts
import Binning.Proofs.Index.Sums

/-! Summing is slicing and then projecting. A range that is summed counts what
the range, kept bin by bin, still holds, and projecting it away counts all of
that. -/
namespace Binning.Histogram
open Results Reduction

variable {r : Registry} {h : Histogram} {routes whole first second : List Route}

/-! ### Reductions in order -/

theorem gathered_range (same : routes.length = h.rank) :
    h.gathered routes (List.range h.rank) = h.moved routes := by
  unfold gathered Reduction.gather moved along
  rw [← same, axes_range]
  rfl

/-- Listing the axes that stay is keeping all of them in their order. -/
theorem gathered_staying (length : h.bins.length = Layout.volume h.extents)
    (same : routes.length = h.rank) {order : List Nat} (places : staying routes = order) :
    h.gathered routes order = h.moved routes := by
  subst places
  have axes : h.extents.length = routes.length := by
    rw [extents, List.length_map, length_bareAxes, same]
  unfold gathered Reduction.gather
  rw [axes_staying]
  apply Bins.gather_congr
  intro p below
  exact target_staying axes (Layout.inside_tuple (length ▸ below)) _

/-- Moving on from where the contents were moved is moving them there at once. -/
theorem moved_moved_of_along (sound : h.Sound) (integral : h.bins.kind.isIntegral = true)
    (lands : List.Forall₂ (fun a route => Route.Lands a route) h.bareAxes first)
    (last : stay second = stay whole)
    (composes : ∀ p < Layout.volume h.extents,
      along h.bareAxes whole p = along h.bareAxes first p >>= along (stay first) second)
    {g : Histogram} (axes : g.bareAxes = stay first) (bins : g.bins = h.moved first) :
    g.moved second = h.moved whole := by
  have volume := sound.length
  rw [moved, bins, axes, moved, Bins.gather_gather integral, last]
  · apply Bins.gather_congr
    intro p below
    exact (composes p (volume ▸ below)).symm
  · intro p below j sent
    exact along_lt lands (volume ▸ below) sent

theorem moved_moved (sound : h.Sound) (integral : h.bins.kind.isIntegral = true)
    (composes : Composes h.bareAxes whole first second)
    (lands : List.Forall₂ (fun a route => Route.Lands a route) h.bareAxes first) {g : Histogram}
    (axes : g.bareAxes = stay first) (bins : g.bins = h.moved first) :
    g.moved second = h.moved whole :=
  moved_moved_of_along sound integral lands composes.stay_eq
    (fun _ below => composes.along_eq lands below) axes bins

theorem reduce_range_of_none (same : routes.length = h.rank) (none_stay : stay routes = []) :
    h.reduce r routes (List.range h.rank) = .ok (.value ((h.moved routes).get 0)) := by
  rw [← gathered_range same]
  apply reduce_of_none_stay
  rw [← same, axes_range, none_stay]

theorem reduce_range_of_some (same : routes.length = h.rank) (some_stay : stay routes ≠ []) :
    h.reduce r routes (List.range h.rank) =
      .histogram <$> ofParts r (stay routes) (h.moved routes) h.family := by
  rw [← gathered_range same, ← axes_range, same]
  apply reduce_of_some_stay
  rwa [← same, axes_range]

theorem checkKept_of_valid {rank : Nat} {seen kept : List Nat} (once : kept.Nodup)
    (exist : ∀ d ∈ kept, d < rank ∧ d ∉ seen) : checkKept rank seen kept = .ok () := by
  induction kept generalizing seen with
  | nil => rfl
  | cons d rest ih =>
    obtain ⟨fresh, once⟩ := List.nodup_cons.mp once
    obtain ⟨head, exist⟩ := List.forall_mem_cons.mp exist
    rw [checkKept, if_neg (by simpa [not_or] using head)]
    apply ih once
    intro e among
    obtain ⟨below, other⟩ := exist e among
    refine ⟨below, ?_⟩
    rw [List.mem_cons, not_or]
    exact ⟨fun same => fresh (same ▸ among), other⟩

/-! ### Sums -/

open Index in
theorem alike_index_routes (sound : h.Sound) {entries : List Index}
    (straight : ∀ expanded, expand entries h.rank = .ok expanded →
      ∀ ae ∈ h.bareAxes.zip expanded, ae.2.sums = true → ae.1.options.circular = false) :
    Alike (fun whole first => ∃ expanded, expand entries h.rank = .ok expanded ∧
        UnsumsAll h.bareAxes expanded whole first)
      (Index.routes h.bareAxes entries) (Index.routes h.bareAxes (entries.map unsummed)) := by
  unfold Index.routes
  rw [expand_map_unsummed, length_bareAxes]
  cases done : expand entries h.rank with
  | error e => exact .error _
  | ok expanded =>
    have same : expanded.length = h.bareAxes.length :=
      (expands_of_expand done).length.trans (length_bareAxes h).symm
    exact (alike_routes same sound.fits (straight expanded done)).imp fun _ _ unsums =>
      ⟨expanded, rfl, unsums⟩

open Index in
/-- Projecting the axes away that were to be summed is summing them. -/
theorem sum_or_project (sound : h.Sound) (integral : h.bins.kind.isIntegral = true)
    (plain : r.Plain) {expanded : List Index}
    (unsums : UnsumsAll h.bareAxes expanded whole first)
    (lands : List.Forall₂ (fun a route => Route.Lands a route) h.bareAxes first)
    {sliced : Histogram} (parts : ofParts r (stay first) (h.moved first) h.family = .ok sliced) :
    h.reduce r whole (List.range h.rank) =
      if unsummedPlaces expanded = [] then .ok (.value (sliced.sum true))
      else .histogram <$> sliced.project r (unsummedPlaces expanded) := by
  obtain ⟨_, bins, _, family⟩ := ofParts_eq_ok parts
  have axes := bareAxes_of_ofParts plain parts
  have length : (stay first).length = (ranges expanded).length := unsums.length_stay
  have composes := unsums.composes sound.fits
  have routes_length : whole.length = h.rank := composes.lengths.1.trans (length_bareAxes h)
  have volume : sliced.bins.length = Layout.volume sliced.extents := by
    rw [bins, moved, Bins.length_gather, extents, axes]
  have places : staying (projections sliced.bareAxes (unsummedPlaces expanded)) =
      unsummedPlaces expanded := by
    rw [axes, ← folds_eq_projections length, staying_folds length]
  have projected : sliced.gathered (projections sliced.bareAxes (unsummedPlaces expanded))
      (unsummedPlaces expanded) = h.moved whole := by
    rw [gathered_staying volume _ places, axes, ← folds_eq_projections length]
    · exact moved_moved sound integral composes lands axes bins
    · rw [projections, List.length_mapIdx, length_bareAxes]
  have kept_axes : Reduction.axes (projections sliced.bareAxes (unsummedPlaces expanded))
      (unsummedPlaces expanded) = stay whole := by
    refine (congrArg (Reduction.axes _) places).symm.trans ((axes_staying _).trans ?_)
    rw [axes, ← folds_eq_projections length, composes.stay_eq]
  split
  · rename_i none_kept
    rw [none_kept] at projected kept_axes
    rw [reduce_range_of_none routes_length kept_axes.symm, ← projected, projections_nil]
    rfl
  · rename_i some_kept
    have exist : ∀ d ∈ unsummedPlaces expanded, d < sliced.bareAxes.length := by
      intro d among
      obtain ⟨_, listed, _⟩ := mem_unsummedPlaces.mp among
      rw [axes, length]
      exact (List.getElem?_eq_some_iff.mp listed).1
    have checked : checkKept sliced.rank [] (unsummedPlaces expanded) = .ok () := by
      apply checkKept_of_valid (List.nodup_range.filter _)
      intro d among
      exact ⟨length_bareAxes sliced ▸ exist d among, List.not_mem_nil⟩
    rw [project_of_checked some_kept checked, projected, ← axes_projections exist, kept_axes, family]
    apply reduce_range_of_some routes_length
    rw [← kept_axes, axes_projections exist]
    exact filterMap_getElem?_ne_nil exist some_kept

open Index in
/-- Both expressions fail alike, or the one is what remains of the other. -/
theorem index_unsummed (sound : h.Sound) (integral : h.bins.kind.isIntegral = true)
    (covers : r.Covers) (plain : r.Plain) {entries : List Index}
    (some_sum : ∃ entry ∈ entries, entry.sums = true)
    (straight : ∀ expanded, expand entries h.rank = .ok expanded →
      ∀ ae ∈ h.bareAxes.zip expanded, ae.2.sums = true → ae.1.options.circular = false) :
    (∃ e, h.index r entries = .error e ∧ h.index r (entries.map unsummed) = .error e) ∨
      ∃ expanded sliced, expand entries h.rank = .ok expanded ∧
        h.index r (entries.map unsummed) = .ok (.histogram sliced) ∧
        (∃ out, h.index r entries = .ok out) ∧
        h.index r entries =
          if unsummedPlaces expanded = [] then .ok (.value (sliced.sum true))
          else .histogram <$> sliced.project r (unsummedPlaces expanded) := by
  have alike := alike_index_routes sound straight
  have fitting : ∀ first, Index.routes h.bareAxes (entries.map unsummed) = .ok first →
      List.Forall₂ Fitting h.bareAxes first := fun _ done => fitting_of_routes sound done
  rw [index_eq_bind, index_eq_bind]
  generalize Index.routes h.bareAxes entries = left,
    Index.routes h.bareAxes (entries.map unsummed) = right at alike fitting
  cases alike with
  | error e => exact .inl ⟨e, rfl, rfl⟩
  | @ok whole first related =>
    obtain ⟨expanded, expand, unsums⟩ := related
    obtain ⟨_, length, _⟩ := (unsums.composes sound.fits).lengths
    obtain ⟨sliced, parts⟩ := ofParts_of_covers covers (stay first) (h.moved first) h.family
    have some_stay : stay first ≠ [] := by
      obtain ⟨entry, among, summed⟩ := exists_sums_of_expand expand some_sum
      have listed : entry ∈ ranges expanded := mem_ranges_of_sums among summed
      rw [← List.length_pos_iff, unsums.length_stay]
      exact List.length_pos_of_mem listed
    refine .inr ⟨expanded, sliced, expand, ?_, reduce_of_covers covers whole _, ?_⟩
    · change h.reduce r first (List.range h.rank) = _
      rw [reduce_range_of_some (length.trans (length_bareAxes h)) some_stay, parts]
      rfl
    · have lands := (fitting first rfl).imp fun _ _ fit => fit.lands
      exact sum_or_project sound integral plain unsums lands parts

/-- Summing is slicing and then projecting, whatever the expression and the outcome. -/
structure SumsByProjection (r : Registry) (h : Histogram) (entries : List Index) : Prop where
  error : ∀ e, h.index r entries = .error e ↔ h.index r (entries.map .unsummed) = .error e
  ok : ∀ out, h.index r (entries.map .unsummed) = .ok out → ∃ expanded sliced,
    Index.expand entries h.rank = .ok expanded ∧ out = .histogram sliced ∧
      h.index r entries =
        if Index.unsummedPlaces expanded = [] then .ok (.value (sliced.sum true))
        else .histogram <$> sliced.project r (Index.unsummedPlaces expanded)
  /-- Flow bins are counted on the sides that are not cut. -/
  flow : ∀ (a : Axis) (start stop : Option Loc) (route : Route), a ∈ h.bareAxes →
    (Index.slice ⟨start, stop, some .sum⟩).route a = .ok route →
      ∃ lo hi, Ranges a start stop lo hi ∧ ∀ i, a.representable i = true →
        (route.send (a.slot i) = some none ↔ a.Within lo hi (lo == 0) (hi == a.size) i)

theorem Reachable.index_sums (reachable : h.Reachable) (known : r.Known) (plain : r.Plain)
    (integral : h.storage.kind.isIntegral = true) {entries : List Index}
    (some_sum : ∃ entry ∈ entries, entry.sums = true)
    (straight : ∀ expanded, Index.expand entries h.rank = .ok expanded →
      ∀ ae ∈ h.bareAxes.zip expanded, ae.2.sums = true → ae.1.options.circular = false) :
    SumsByProjection r h entries := by
  have sound := reachable.sound
  have outcomes := index_unsummed sound (sound.kind ▸ integral) known.covers plain some_sum straight
  refine ⟨fun e => ?_, fun out done => ?_, fun a start stop route among done => ?_⟩
  · rcases outcomes with ⟨e, left, right⟩ | ⟨_, _, _, right, ⟨out, left⟩, _⟩
    · rw [left, right]
    · rw [left, right]
      exact ⟨(nomatch ·), (nomatch ·)⟩
  · rcases outcomes with ⟨e, _, right⟩ | ⟨expanded, sliced, expand, right, _, left⟩
    · cases right.symm.trans done
    · cases right.symm.trans done
      exact ⟨expanded, sliced, expand, rfl, left⟩
  · have fits := sound.fits a among
    obtain ⟨_, ⟨⟩ | ⟨ranges⟩, rfl⟩ := chooses_of_route fits done
    refine ⟨_, _, ranges, fun i has => ?_⟩
    exact Route.send_sum_iff fits has (Nat.le_of_lt ranges.lt) ranges.le_size

/-- Four entries, one of them beyond the first axis and one beyond the second. -/
def filledPair : Histogram :=
  (growingPair.fillAll .builtin
    [[.int 0, .int 0], [.int 1, .int 1], [.int 2, .int 1], [.int 1, .int 7]]).state

theorem reachable_filledPair : filledPair.Reachable :=
  .fillAll reachable_growingPair Registry.builtin_keepsShape (by decide +kernel)

/-- The sum of the first two bins of the first axis, with all of the others. -/
def firstSums : List Index := [.slice { stop := some (.ofBin 2), action := some .sum }, .ellipsis]

theorem index_sums_filledPair : (∃ entry ∈ firstSums, entry.sums = true) ∧
    SumsByProjection .builtin filledPair firstSums := by
  have some_sum : ∃ entry ∈ firstSums, entry.sums = true :=
    ⟨_, List.mem_cons_self, rfl⟩
  refine ⟨some_sum, ?_⟩
  refine reachable_filledPair.index_sums .builtin Registry.builtin_plain (by decide +kernel)
    some_sum ?_
  have straight : ∀ a ∈ filledPair.bareAxes, a.options.circular = false := by decide +kernel
  intro expanded _ ae among _
  exact straight ae.1 (List.of_mem_zip among).1

end Binning.Histogram
