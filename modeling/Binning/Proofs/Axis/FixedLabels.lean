import Binning.Index
import Binning.Proofs.Axis.Equality
import Binning.Proofs.Axis.Labels
import Binning.Proofs.Histogram.Growth

/-! The overflow bin of fixed labels. An axis of labels that does not grow has a
bin behind all of them, but no coordinate is placed there: one that is not among
the labels is refused. No move brings the content of a label there either. -/
namespace Binning
open Results

/-- The index behind the labels of an axis that learns no others. -/
def Axis.Unlisted (a : Axis) (i : Int) : Prop :=
  a.options.growth = false ∧ ∃ c, a.law = .category c ∧ i = c.labels.length

/-- The tuple has such an index on some axis. -/
def Axis.AnyUnlisted (axes : List Axis) (is : List Int) : Prop :=
  ∃ ai ∈ axes.zip is, ai.1.Unlisted ai.2

namespace Axis
variable {a new : Axis} {i k : Int}

theorem Unlisted.eq_size (unlisted : a.Unlisted i) : i = a.size := by
  obtain ⟨_, c, law, rfl⟩ := unlisted
  rw [size_of_labels law, Category.length_labels]

theorem not_unlisted_of_growth (grows : a.options.growth = true) : ¬ a.Unlisted i := by
  rintro ⟨fixed, _⟩
  rw [grows] at fixed
  contradiction

/-- A coordinate that is not among fixed labels is refused, not placed. -/
theorem not_unlisted_of_locate (fits : a.Fits) {c : Coord} {p : Placement}
    (placed : a.locate c = .ok p) : ¬ a.Unlisted p.index := by
  intro unlisted
  have past := unlisted.eq_size
  obtain ⟨fixed, labels, law, _⟩ := unlisted
  have category : a.isCategory = true := by simp [isCategory, law]
  simp only [locate, bind_eq_ok, fixed, category] at placed
  obtain ⟨j, _, placed⟩ := placed
  split at placed
  · rename_i inside
    cases placed
    have below := inside.2
    rw [fits.beyond_eq] at below
    exact absurd past (Int.ne_of_lt below)
  · cases placed

theorem Unlisted.of_sameShape (same : a.SameShape new) (unlisted : new.Unlisted i) :
    a.Unlisted i := by
  obtain ⟨label, rfl⟩ := same
  exact unlisted

theorem Unlisted.of_beq (equal : (a == new) = true) (unlisted : a.Unlisted i) :
    new.Unlisted i := by
  obtain ⟨fixed, c, law, past⟩ := unlisted
  have parts : (a.law == new.law && (a.options == new.options && a.label == new.label)) = true :=
    equal
  simp only [Bool.and_eq_true] at parts
  obtain ⟨laws, options, _⟩ := parts
  refine ⟨eq_of_beq options ▸ fixed, c, ?_, past⟩
  rw [law] at laws
  cases other : new.law with
  | category d =>
    rw [other] at laws
    have labels : (c == d) = true := laws
    rw [eq_of_beq labels]
  | regular | edges | integer =>
    rw [other] at laws
    contradiction

theorem AnyUnlisted.imp {axes others : List Axis} {is : List Int}
    (each : List.Forall₂ (fun a b => ∀ i, a.Unlisted i → b.Unlisted i) axes others)
    (unlisted : AnyUnlisted axes is) : AnyUnlisted others is := by
  obtain ⟨⟨a, i⟩, among, here⟩ := unlisted
  obtain ⟨d, found⟩ := List.mem_iff_getElem?.mp among
  obtain ⟨axis, index⟩ := List.getElem?_zip_eq_some.mp found
  obtain ⟨below, rfl⟩ := List.getElem?_eq_some_iff.mp axis
  have there : d < others.length := each.length_eq ▸ below
  refine ⟨(others[d], i), ?_, each.get below there i here⟩
  exact List.mem_iff_getElem?.mpr
    ⟨d, List.getElem?_zip_eq_some.mpr ⟨List.getElem?_eq_getElem there, index⟩⟩

theorem AnyUnlisted.of_beq {axes others : List ClassedAxis} {is : List Int}
    (equal : (axes == others) = true) (unlisted : AnyUnlisted (axes.map ClassedAxis.axis) is) :
    AnyUnlisted (others.map ClassedAxis.axis) is := by
  refine unlisted.imp ?_
  rw [List.forall₂_map_left_iff, List.forall₂_map_right_iff]
  refine (ClassedAxis.forall₂_of_beq equal).imp fun _ _ same i here => here.of_beq same

end Axis

/-! ### Routes -/

/-- Only the overflow bin of fixed labels goes to one. -/
def Route.SparesOverflow (a : Axis) (r : Route) : Prop :=
  ∀ new i k, r.axis? = some new → a.representable i = true → r.index? a i = some k →
    new.Unlisted k → a.Unlisted i

namespace Route
variable {a new : Axis}

theorem sparesOverflow_fold (a : Axis) (admits : Nat → Bool) : (fold admits).SparesOverflow a := by
  rintro _ _ _ ⟨⟩

theorem sparesOverflow_identity (fits : a.Fits) : (identity a).SparesOverflow a := by
  intro new i k stays has sent unlisted
  cases stays
  rw [index?_identity fits has] at sent
  cases sent
  exact unlisted

theorem sparesOverflow_of_growth {r : Route} (stays : r.axis? = some new)
    (grows : new.options.growth = true) : r.SparesOverflow a := by
  intro kept i k axis _ _ unlisted
  cases stays.symm.trans axis
  exact absurd unlisted (Axis.not_unlisted_of_growth grows)

/-- A range has as many labels as bins, so none of its bins goes behind them. -/
theorem sparesOverflow_regroup (fits : a.Fits) {lo hi merge : Nat}
    (cut : a.slice lo hi merge = .ok new) (under beyond : Bool) :
    (regroup a new lo hi merge under beyond).SparesOverflow a := by
  intro kept i k stays has sent unlisted
  cases stays
  obtain ⟨fixed, d, law, rfl⟩ := unlisted
  obtain ⟨c, parent, rfl⟩ := Axis.labels_of_slice cut law
  obtain ⟨_, inside, _, _, options, _⟩ := Axis.size_of_slice cut
  rw [Axis.size_of_labels parent] at inside
  have count : (c.slice lo hi).labels.length = hi - lo := by
    rw [Category.length_labels, Category.size_slice inside]
  obtain ⟨_, ⟨low, high, group⟩ | ⟨_, _, below⟩ | ⟨last, _, _⟩⟩ :=
    (index?_regroup_iff fits cut has).mp sent
  · have most := Int.tdiv_le_self (Word64.signed merge) (Int.sub_nonneg.mpr low)
    omega
  · omega
  · refine ⟨options ▸ fixed, c, parent, ?_⟩
    rw [last, Axis.size_of_labels parent, Category.length_labels]

theorem sparesOverflow_route (fits : a.Fits) {entry : Index} {route : Route}
    (done : entry.route a = .ok route) : route.SparesOverflow a := by
  cases entry with
  | ellipsis => simp only [Index.route, throw_eq_ok] at done
  | pick place =>
    simp only [Index.route, bind_eq_ok, ite_throw_eq_ok, pure_eq_ok] at done
    obtain ⟨_, _, _, rfl⟩ := done
    exact sparesOverflow_fold a _
  | slice range =>
    simp only [Index.route, bind_eq_ok, guard_eq_ok] at done
    obtain ⟨lo, _, hi, _, _, done⟩ := done
    split at done
    · cases done
      exact sparesOverflow_fold a _
    · simp only [throw_eq_ok] at done
    · simp only [bind_eq_ok, pure_eq_ok] at done
      obtain ⟨_, cut, rfl⟩ := done
      exact sparesOverflow_regroup fits cut _ _
    · simp only [bind_eq_ok, pure_eq_ok] at done
      obtain ⟨_, cut, rfl⟩ := done
      exact sparesOverflow_regroup fits cut _ _

theorem index?_of_send {r : Route} {i : Int} {s : Nat} (stays : r.axis? = some new)
    (sent : r.send (a.slot i) = some (some s)) : r.index? a i = some (new.indexOfSlot s) := by
  cases r with
  | fold => contradiction
  | keep target kept =>
    cases stays
    obtain ⟨_, found, same⟩ := Option.map_eq_some_iff.mp sent
    cases same
    exact congrArg (Option.map _) found

end Route

theorem Histogram.sparesOverflow_growAxis {r : Registry} {family : Family} {a new : ClassedAxis}
    {c : Coord} {p : Axis.Placement} {route : Route} (keeps : r.KeepsShape) (made : a.axis.Made)
    (fits : a.axis.Fits) (located : a.axis.locate c = .ok p)
    (grows : growAxis r family a p = .ok (new, route)) : route.SparesOverflow a.axis := by
  obtain ⟨_, _, _, kept, stays, _, ⟨rfl, _⟩ | ⟨_, grown⟩⟩ :=
    shape_of_growAxis keeps made located grows
  · exact Route.sparesOverflow_identity fits
  · obtain ⟨_, options, _⟩ := Axis.size_of_locate made.size_pos located grown
    refine Route.sparesOverflow_of_growth stays ?_
    rw [options]
    exact Axis.growth_of_locate located grown

/-! ### Reductions -/

/-- Two lists that are filtered alike stand in step. -/
theorem exists_of_filterMap {ι α β : Type} {f : ι → Option α} {g : ι → Option β} {x : α} {y : β}
    {order : List ι} (step : ∀ d ∈ order, (f d).isSome = (g d).isSome)
    (among : (x, y) ∈ (order.filterMap f).zip (order.filterMap g)) :
    ∃ d ∈ order, f d = some x ∧ g d = some y := by
  induction order with
  | nil => contradiction
  | cons d order ih =>
    obtain ⟨head, tail⟩ := List.forall_mem_cons.mp step
    have later (among : (x, y) ∈ (order.filterMap f).zip (order.filterMap g)) :
        ∃ e ∈ d :: order, f e = some x ∧ g e = some y := by
      obtain ⟨e, listed, both⟩ := ih tail among
      exact ⟨e, List.mem_cons_of_mem _ listed, both⟩
    cases left : f d <;> cases right : g d <;> simp only [left, right, Option.isSome] at head
    case none.none =>
      rw [List.filterMap_cons_none left, List.filterMap_cons_none right] at among
      exact later among
    case some.some =>
      rw [List.filterMap_cons_some left, List.filterMap_cons_some right] at among
      rcases List.mem_cons.mp among with same | among
      · cases same
        exact ⟨d, List.mem_cons_self, left, right⟩
      · exact later among
    all_goals contradiction

theorem mem_zip_zipWith {α β γ : Type} (f : α → β → γ) {xs : List α} {ys : List β} {x : α} {y : β}
    (among : (x, y) ∈ xs.zip ys) : (x, f x y) ∈ xs.zip (List.zipWith f xs ys) := by
  obtain ⟨d, found⟩ := List.mem_iff_getElem?.mp among
  obtain ⟨left, right⟩ := List.getElem?_zip_eq_some.mp found
  refine List.mem_iff_getElem?.mpr ⟨d, List.getElem?_zip_eq_some.mpr ⟨left, ?_⟩⟩
  simp only at left right
  simp [List.getElem?_zipWith, left, right]

namespace Reduction
variable {axes : List Axis} {routes : List Route} {order : List Nat}

/-- What goes to the overflow bin of fixed labels comes from one. -/
theorem anyUnlisted_of_target (lands : List.Forall₂ (fun a r => Route.Lands a r) axes routes)
    (spares : List.Forall₂ (fun a r => Route.SparesOverflow a r) axes routes)
    (fits : ∀ a ∈ axes, a.Fits) (kept : ∀ a ∈ Reduction.axes routes order, a.Fits) {p : Nat}
    (below : p < Layout.volume (axes.map Axis.extent)) {ks : List Int}
    (has : Axis.Addresses (Reduction.axes routes order) ks)
    (sent : target (axes.map Axis.extent) ((Reduction.axes routes order).map Axis.extent) routes
      order p = some (Axis.place (Reduction.axes routes order) ks))
    (unlisted : Axis.AnyUnlisted (Reduction.axes routes order) ks) :
    Axis.AnyUnlisted axes (Axis.indicesAt axes p) := by
  obtain ⟨slots, all, same⟩ := Option.map_eq_some_iff.mp sent
  have inside := Layout.inside_tuple below
  have parallel := parallel_of_sendAll (landsWithin_extents lands) inside all
  -- the slots of the kept axes are those of the tuple
  have taken := (Layout.position_bijOn _).injOn (inside_kept fun d _ => parallel d)
    (Axis.inside_slotsOf kept has) same
  obtain ⟨⟨new, k⟩, among, unlisted⟩ := unlisted
  have slot := mem_zip_zipWith Axis.slot among
  rw [← Axis.slotsOf, ← taken] at slot
  obtain ⟨d, _, axis, there⟩ :=
    exists_of_filterMap (fun d _ => (parallel d).isSome_eq) slot
  -- both come from one axis, which stays
  obtain ⟨route, listed, stays⟩ := Option.bind_eq_some_iff.mp axis
  obtain ⟨o, found, rfl⟩ := Option.bind_eq_some_iff.mp there
  obtain ⟨d_routes, rfl⟩ := List.getElem?_eq_some_iff.mp listed
  have d_axes : d < axes.length := lands.length_eq ▸ d_routes
  have d_slots : d < (Layout.tuple (axes.map Axis.extent) p).length := by
    rw [inside.length_eq, List.length_map]
    exact d_axes
  obtain ⟨o, again, sends⟩ := getElem?_sendAll all listed (List.getElem?_eq_getElem d_slots)
  cases found.symm.trans again
  have small : (Layout.tuple (axes.map Axis.extent) p)[d] < axes[d].extent := by
    simpa using (Layout.inside_iff_forall₂.mp inside).get (by simpa using d_axes) d_slots
  have fit := fits _ (List.getElem_mem d_axes)
  have source : (axes[d], (Layout.tuple (axes.map Axis.extent) p)[d]) ∈
      axes.zip (Layout.tuple (axes.map Axis.extent) p) :=
    List.mem_iff_getElem?.mpr ⟨d, List.getElem?_zip_eq_some.mpr
      ⟨List.getElem?_eq_getElem d_axes, List.getElem?_eq_getElem d_slots⟩⟩
  refine ⟨_, mem_zip_zipWith Axis.indexOfSlot source, ?_⟩
  refine spares.get d_axes d_routes new _ k stays (fit.representable_indexOfSlot small) ?_ unlisted
  rw [← fit.slot_indexOfSlot small] at sends
  have arrives := Route.index?_of_send stays sends
  rwa [(kept new (List.of_mem_zip among).1).indexOfSlot_slot (List.forall₂_zip has among)] at arrives

end Reduction
end Binning
