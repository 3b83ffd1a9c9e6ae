import Binning.Histogram.Reshape
import Binning.Proofs.Histogram.Sound
import Binning.Proofs.Index.Expand

/-! Reshaping keeps histograms sound. Whatever becomes of an axis, it goes along
a route that lands on an axis of its own, no larger than the one before. -/
namespace Binning.Histogram
open Results

variable {h : Histogram}

theorem add_eq_ok {other total : Histogram} : h.add other = .ok total ↔
    (h.axes == other.axes) = true ∧ h.storage.kind = other.storage.kind ∧
      { h with bins := h.bins.addAll other.bins } = total := by
  have storage : (h.storage == other.storage) = true ↔ h.storage.kind = other.storage.kind :=
    beq_iff_eq (α := StorageKind)
  rw [Histogram.add, ite_throw_eq_ok, pure_eq_ok, Bool.and_eq_true, storage, and_assoc]

theorem Sound.add (sound : h.Sound) {other total : Histogram} (others : other.Sound)
    (done : h.add other = .ok total) : total.Sound := by
  obtain ⟨_, storage, rfl⟩ := add_eq_ok.mp done
  have same : other.bins.kind = h.bins.kind := by
    rw [← others.kind, ← sound.kind, storage]
  obtain ⟨length, kind⟩ := Bins.length_kind_addAll h.bins other.bins
  refine ⟨sound.made, sound.allocated, ?_, ?_, ?_⟩
  · exact length.trans sound.length
  · exact sound.kind.trans kind.symm
  · exact sound.words.addAll same

/-- A route that lands on an axis of its own, which is no larger than the one
before. -/
structure Fitting (a : Axis) (route : Route) : Prop where
  lands : route.Lands a
  made : ∀ kept, route.axis? = some kept → kept.Made
  extent_le : ∀ kept, route.axis? = some kept → kept.extent ≤ a.extent

theorem fitting_fold (a : Axis) (admits : Nat → Bool) : Fitting a (.fold admits) :=
  ⟨Route.lands_fold admits, by rintro _ ⟨⟩, by rintro _ ⟨⟩⟩

theorem fitting_identity {a : Axis} (made : a.Made) : Fitting a (.identity a) := by
  refine ⟨Route.lands_identity, ?_, ?_⟩
  · rintro _ ⟨⟩
    exact made
  · rintro _ ⟨⟩
    exact Nat.le_refl _

theorem fitting_regroup {a new : Axis} {lo hi merge : Nat} (made : a.Made) (fits : a.Fits)
    (cut : a.slice lo hi merge = .ok new) (under beyond : Bool) :
    Fitting a (.regroup a new lo hi merge under beyond) := by
  refine ⟨Route.lands_regroup (fits.slice cut), ?_, ?_⟩
  · rintro _ ⟨⟩
    exact made.cut cut
  · rintro _ ⟨⟩
    exact Axis.extent_le_of_slice cut

theorem fitting_route {a : Axis} {entry : Index} {route : Route} (made : a.Made) (fits : a.Fits)
    (done : entry.route a = .ok route) : Fitting a route := by
  cases entry with
  | ellipsis => simp only [Index.route, throw_eq_ok] at done
  | pick place =>
    simp only [Index.route, bind_eq_ok, ite_throw_eq_ok, pure_eq_ok] at done
    obtain ⟨i, _, _, rfl⟩ := done
    exact fitting_fold ..
  | slice range =>
    simp only [Index.route, bind_eq_ok, guard_eq_ok] at done
    obtain ⟨lo, _, hi, _, _, done⟩ := done
    split at done
    · cases done
      exact fitting_fold ..
    · simp only [throw_eq_ok] at done
    · simp only [bind_eq_ok, pure_eq_ok] at done
      obtain ⟨new, cut, rfl⟩ := done
      exact fitting_regroup made fits cut ..
    · simp only [bind_eq_ok, pure_eq_ok] at done
      obtain ⟨new, cut, rfl⟩ := done
      exact fitting_regroup made fits cut ..

section
variable {r : Registry} {routes : List Route} {order : List Nat}

theorem mem_axes {kept : Axis} (among : kept ∈ Reduction.axes routes order) :
    ∃ d ∈ order, ∃ route, routes[d]? = some route ∧ route.axis? = some kept := by
  obtain ⟨d, listed, found⟩ := List.mem_filterMap.mp among
  obtain ⟨route, at_d, axis⟩ := Option.bind_eq_some_iff.mp found
  exact ⟨d, listed, route, at_d, axis⟩

/-- The axes that stay, each of them once, can be made and allocated. -/
theorem axes_of_fitting (sound : h.Sound) (fitting : List.Forall₂ Fitting h.bareAxes routes)
    (once : order.Nodup) (exist : ∀ d ∈ order, d < h.rank) :
    (∀ a ∈ Reduction.axes routes order, a.Made) ∧
      Layout.volume ((Reduction.axes routes order).map Axis.extent) < 2 ^ 63 := by
  have each : ∀ (d : Nat) (route : Route), routes[d]? = some route →
      ∃ a, h.bareAxes[d]? = some a ∧ Fitting a route := by
    intro d route at_d
    obtain ⟨below, rfl⟩ := List.getElem?_eq_some_iff.mp at_d
    have bound : d < h.bareAxes.length := fitting.length_eq ▸ below
    exact ⟨_, List.getElem?_eq_getElem bound, fitting.get bound below⟩
  constructor
  · intro kept among
    obtain ⟨d, _, route, at_d, axis⟩ := mem_axes among
    obtain ⟨_, _, fit⟩ := each d route at_d
    exact fit.made kept axis
  · refine Nat.lt_of_le_of_lt ?_ sound.allocated
    rw [Reduction.axes, List.map_filterMap]
    apply Layout.volume_filterMap_le (zero_not_mem_of_made sound.made_bare) once
    · intro d among
      rw [List.length_map, bareAxes, List.length_map]
      exact exist d among
    · intro d _ extent found
      obtain ⟨kept, stays, rfl⟩ := Option.map_eq_some_iff.mp found
      obtain ⟨route, at_d, axis⟩ := Option.bind_eq_some_iff.mp stays
      obtain ⟨a, at_a, fit⟩ := each d route at_d
      simpa [List.getD_eq_getElem?_getD, at_a] using fit.extent_le kept axis

theorem Sound.reduce (sound : h.Sound) (keeps : r.KeepsShape)
    (fitting : List.Forall₂ Fitting h.bareAxes routes) (once : order.Nodup)
    (exist : ∀ d ∈ order, d < h.rank) {reduced : Histogram}
    (done : h.reduce r routes order = .ok (.histogram reduced)) : reduced.Sound := by
  obtain ⟨made, small⟩ := axes_of_fitting sound fitting once exist
  unfold Histogram.reduce Reduction.gather at done
  simp only at done
  split at done
  · cases done
  · obtain ⟨reduced, parts, same⟩ := map_eq_ok.mp done
    cases same
    exact sound_ofParts keeps parts made small (Bins.length_gather ..) (Bins.words_gather _ _ _)

theorem index_eq_ok {entries : List Index} {out : Selection}
    (done : h.index r entries = .ok out) : ∃ expanded routes,
      Index.expand entries h.rank = .ok expanded ∧
      List.Forall₂ (fun ae route => Index.route ae.1 ae.2 = .ok route)
        (h.bareAxes.zip expanded) routes ∧
      h.reduce r routes (List.range h.rank) = .ok out := by
  simp only [Histogram.index, bind_eq_ok, mapError_eq_ok, mapM_eq_ok] at done
  obtain ⟨expanded, expand, routes, routed, reduced⟩ := done
  exact ⟨expanded, routes, expand, routed, reduced⟩

/-- What holds of an axis and its route under any entry holds all along. -/
theorem forall₂_of_routed {P : Axis → Route → Prop} {axes : List Axis} {entries : List Index}
    (same : entries.length = axes.length)
    (each : ∀ a ∈ axes, ∀ entry route, Index.route a entry = .ok route → P a route)
    (routed : List.Forall₂ (fun ae route => Index.route ae.1 ae.2 = .ok route)
      (axes.zip entries) routes) : List.Forall₂ P axes routes := by
  induction axes generalizing entries routes with
  | nil =>
    cases routed
    exact .nil
  | cons a axes ih =>
    cases entries with
    | nil => contradiction
    | cons entry entries =>
      cases routed with
      | cons first routed =>
        obtain ⟨head, tail⟩ := List.forall_mem_cons.mp each
        exact .cons (head entry _ first) (ih (Nat.succ.inj same) tail routed)

theorem fitting_routes {axes : List Axis} {entries : List Index}
    (same : entries.length = axes.length) (made : ∀ a ∈ axes, a.Made) (fits : ∀ a ∈ axes, a.Fits)
    (routed : List.Forall₂ (fun ae route => Index.route ae.1 ae.2 = .ok route)
      (axes.zip entries) routes) : List.Forall₂ Fitting axes routes :=
  forall₂_of_routed same (fun a among _ _ => fitting_route (made a among) (fits a among)) routed

theorem Sound.index (sound : h.Sound) (keeps : r.KeepsShape) {entries : List Index}
    {selected : Histogram} (done : h.index r entries = .ok (.histogram selected)) :
    selected.Sound := by
  obtain ⟨expanded, routes, expand, routed, reduced⟩ := index_eq_ok done
  have same : expanded.length = h.bareAxes.length :=
    (Index.expands_of_expand expand).length.trans (List.length_map _).symm
  exact sound.reduce keeps (fitting_routes same sound.made_bare sound.fits routed)
    List.nodup_range (fun d among => List.mem_range.mp among) reduced

theorem checkKept_eq_ok {rank : Nat} {seen kept : List Nat}
    (done : checkKept rank seen kept = .ok ()) :
    kept.Nodup ∧ ∀ d ∈ kept, d < rank ∧ d ∉ seen := by
  induction kept generalizing seen with
  | nil => exact ⟨List.nodup_nil, fun _ none => absurd none List.not_mem_nil⟩
  | cons d rest ih =>
    rw [checkKept, throw_ite_eq_ok] at done
    obtain ⟨fresh, done⟩ := done
    obtain ⟨once, exist⟩ := ih done
    rw [not_or, Nat.not_le] at fresh
    refine ⟨List.nodup_cons.mpr ⟨fun among => ?_, once⟩, ?_⟩
    · exact (exist d among).2 List.mem_cons_self
    · refine List.forall_mem_cons.mpr ⟨fresh, fun e among => ?_⟩
      obtain ⟨below, other⟩ := exist e among
      exact ⟨below, fun listed => other (List.mem_cons_of_mem _ listed)⟩

theorem Sound.project (sound : h.Sound) (keeps : r.KeepsShape) {kept : List Nat}
    {projected : Histogram} (done : h.project r kept = .ok projected) : projected.Sound := by
  simp only [Histogram.project, guard_eq_ok, bind_eq_ok, mapError_eq_ok] at done
  obtain ⟨_, _, checked, out, reduced, done⟩ := done
  obtain ⟨once, exist⟩ := checkKept_eq_ok checked
  split at done
  · cases done
    refine sound.reduce keeps ?_ once (fun d among => (exist d among).1) reduced
    refine List.forall₂_iff_get.mpr ⟨List.length_mapIdx.symm, fun d below _ => ?_⟩
    rw [List.get_eq_getElem, List.get_eq_getElem, List.getElem_mapIdx]
    split
    · exact fitting_identity (sound.made_bare _ (List.getElem_mem below))
    · exact fitting_fold ..
  · cases done

end

end Binning.Histogram
