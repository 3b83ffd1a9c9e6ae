import Binning.Proofs.Histogram.Reshape

/-! What reductions give, as equations. The contents are gathered once, and what
remains is to cast the axes that stay. A projection lists axes that exist, so
some axis stays. -/
namespace Binning
open Results

/-- The routes of the axes under an index expression. -/
def Index.routes (axes : List Axis) (entries : List Index) : Except Error (List Route) := do
  let expanded ← (expand entries axes.length).mapError .index
  (axes.zip expanded).mapM fun (a, entry) => route a entry

namespace Histogram

variable {r : Registry} {h : Histogram} {routes : List Route} {order kept : List Nat}

/-- The contents sent along the routes, over the axes that stay in that order. -/
def gathered (h : Histogram) (routes : List Route) (order : List Nat) : Bins :=
  (Reduction.gather h.bins h.extents routes order).2

theorem reduce_of_none_stay (none_stay : Reduction.axes routes order = []) :
    h.reduce r routes order = .ok (.value ((h.gathered routes order).get 0)) :=
  if_pos (List.isEmpty_iff.mpr none_stay)

theorem reduce_of_some_stay (some_stay : Reduction.axes routes order ≠ []) :
    h.reduce r routes order = .histogram <$>
      ofParts r (Reduction.axes routes order) (h.gathered routes order) h.family :=
  if_neg fun none_stay => some_stay (List.isEmpty_iff.mp none_stay)

theorem ofParts_ok_iff (axes : List Axis) (bins : Bins) (family : Family) :
    (∃ cast, ofParts r axes bins family = .ok cast) ↔
      (∃ classed, axes.mapM (ClassedAxis.cast r (some family)) = .ok classed) ∧
        ∃ storage, Storage.inFamily r family bins.kind = .ok storage := by
  simp only [ofParts, bind_eq_ok, pure_eq_ok]
  constructor
  · rintro ⟨_, classed, cast, storage, stored, _⟩
    exact ⟨⟨classed, cast⟩, storage, stored⟩
  · rintro ⟨⟨classed, cast⟩, storage, stored⟩
    exact ⟨_, classed, cast, storage, stored, rfl⟩

@[simp] theorem kind_gathered (h : Histogram) (routes : List Route) (order : List Nat) :
    (h.gathered routes order).kind = h.bins.kind := Bins.kind_gather ..

@[simp] theorem length_gathered (h : Histogram) (routes : List Route) (order : List Nat) :
    (h.gathered routes order).length =
      Layout.volume ((Reduction.axes routes order).map Axis.extent) := Bins.length_gather ..

/-- Whether a reduction succeeds is up to the axes that stay and the kind. -/
theorem reduce_ok_iff : (∃ out, h.reduce r routes order = .ok out) ↔
    Reduction.axes routes order = [] ∨
      (∃ classed, (Reduction.axes routes order).mapM (ClassedAxis.cast r (some h.family)) =
        .ok classed) ∧ ∃ storage, Storage.inFamily r h.family h.bins.kind = .ok storage := by
  by_cases none_stay : Reduction.axes routes order = []
  · simp [reduce_of_none_stay none_stay, none_stay]
  · have parts := ofParts_ok_iff (r := r) (Reduction.axes routes order) (h.gathered routes order)
      h.family
    rw [kind_gathered] at parts
    rw [reduce_of_some_stay none_stay, ← parts]
    simp only [map_eq_ok, none_stay, false_or]
    constructor
    · rintro ⟨_, cast, done, _⟩
      exact ⟨cast, done⟩
    · rintro ⟨cast, done⟩
      exact ⟨_, cast, done, rfl⟩

theorem length_bareAxes (h : Histogram) : h.bareAxes.length = h.rank := List.length_map ..

theorem index_eq_bind (entries : List Index) :
    h.index r entries = (do
      let routes ← Index.routes h.bareAxes entries
      h.reduce r routes (List.range h.rank)) := by
  simp only [Histogram.index, Index.routes, length_bareAxes, bind_assoc]

theorem fitting_of_routes (sound : h.Sound) {entries : List Index}
    (done : Index.routes h.bareAxes entries = .ok routes) :
    List.Forall₂ Fitting h.bareAxes routes := by
  simp only [Index.routes, bind_eq_ok, mapError_eq_ok, mapM_eq_ok] at done
  obtain ⟨expanded, expand, routed⟩ := done
  exact fitting_routes (Index.expands_of_expand expand).length sound.made_bare sound.fits routed

/-! ### Projections -/

/-- The listed axes stay and the others are summed. -/
def projections (axes : List Axis) (kept : List Nat) : List Route :=
  axes.mapIdx fun d a => if d ∈ kept then Route.identity a else Route.sum a 0 a.size true true

theorem projections_nil (axes : List Axis) :
    projections axes [] = axes.map fun a => Route.sum a 0 a.size true true := by
  apply List.ext_getElem <;> simp [projections]

theorem axes_projections {axes : List Axis} (exist : ∀ d ∈ kept, d < axes.length) :
    Reduction.axes (projections axes kept) kept = kept.filterMap (axes[·]?) := by
  apply List.filterMap_congr
  intro d among
  have below := exist d among
  simp [projections, below, among, Route.identity, Route.axis?]

theorem filterMap_getElem?_ne_nil {axes : List Axis} (exist : ∀ d ∈ kept, d < axes.length)
    (some_kept : kept ≠ []) : kept.filterMap (axes[·]?) ≠ [] := by
  obtain ⟨d, among⟩ := List.exists_mem_of_ne_nil kept some_kept
  apply List.ne_nil_of_mem (a := axes.get ⟨d, exist d among⟩)
  exact List.mem_filterMap.mpr ⟨d, among, List.getElem?_eq_getElem (exist d among)⟩

theorem project_of_checked (some_kept : kept ≠ []) (checked : checkKept h.rank [] kept = .ok ()) :
    h.project r kept = ofParts r (kept.filterMap (h.bareAxes[·]?))
      (h.gathered (projections h.bareAxes kept) kept) h.family := by
  have exist : ∀ d ∈ kept, d < h.bareAxes.length := by
    intro d among
    rw [length_bareAxes]
    exact ((checkKept_eq_ok checked).2 d among).1
  have stay := axes_projections exist
  have reduced := reduce_of_some_stay (r := r) (h := h)
    (stay ▸ filterMap_getElem?_ne_nil exist some_kept)
  rw [Histogram.project, if_neg (by simpa using some_kept), checked]
  change (h.reduce r (projections h.bareAxes kept) kept >>= _) = _
  rw [reduced, stay]
  cases ofParts r (kept.filterMap (h.bareAxes[·]?))
    (h.gathered (projections h.bareAxes kept) kept) h.family <;> rfl

/-- A projection is the reduction that sums the other axes. -/
theorem reduce_of_project {projected : Histogram} (done : h.project r kept = .ok projected) :
    h.reduce r (projections h.bareAxes kept) kept = .ok (.histogram projected) := by
  simp only [Histogram.project, guard_eq_ok, bind_eq_ok, mapError_eq_ok] at done
  obtain ⟨_, _, _, out, reduced, done⟩ := done
  split at done <;> cases done
  exact reduced

theorem project_of_not_checked {e : IndexError} (refused : checkKept h.rank [] kept = .error e) :
    h.project r kept = .error (.index e) := by
  have some_kept : kept ≠ [] := by
    rintro rfl
    contradiction
  unfold Histogram.project
  rw [if_neg (by simpa using some_kept), refused]
  rfl

end Histogram
end Binning
