import Binning.Histogram.Read
import Binning.Proofs.Axis.Equality
import Binning.Proofs.Histogram.Casts
import Binning.Proofs.Index.Sums

/-! Histograms that differ in classes only. A class is given by a cast and read by no
operation, so what is done to one of two such histograms does the same to the other:
both fail with the same error, or both results differ in classes only. -/
namespace Binning
open Results
open Index (Alike)

/-- The same histogram but for its classes and its family. -/
structure Histogram.Twin (h g : Histogram) : Prop where
  axes : g.bareAxes = h.bareAxes
  kind : g.storage.kind = h.storage.kind
  bins : g.bins = h.bins

/-- The same cell, or the same histogram but for its classes and its family. -/
inductive Selection.Twin : Selection → Selection → Prop where
  | value (cell : Cell) : Twin (.value cell) (.value cell)
  | histogram {h g : Histogram} : h.Twin g → Twin (.histogram h) (.histogram g)

/-! ### Casts -/

section Casts
variable {r : Registry} (covers : r.Covers) (plain : r.Plain)
include covers

theorem Storage.alike_inFamily (family other : Family) (kind : StorageKind) :
    Alike (fun s t => s.kind = kind ∧ t.kind = kind) (inFamily r family kind)
      (inFamily r other kind) := by
  obtain ⟨s, here⟩ := covers.inFamily family kind
  obtain ⟨t, there⟩ := covers.inFamily other kind
  rw [here, there]
  exact .ok ⟨(inFamily_eq_ok.mp here).2, (inFamily_eq_ok.mp there).2⟩

include plain

namespace ClassedAxis

theorem alike_cast (family other : Option Family) (a : Axis) :
    Alike (fun c d => d.axis = c.axis) (cast r family a) (cast r other a) := by
  obtain ⟨c, here⟩ := covers.cast family a
  obtain ⟨d, there⟩ := covers.cast other a
  rw [here, there]
  exact .ok ((plain.axis_of_cast there).trans (plain.axis_of_cast here).symm)

theorem alike_casts (family other : Option Family) (axes : List Axis) :
    Alike (fun cs ds => ds.map axis = cs.map axis) (axes.mapM (cast r family))
      (axes.mapM (cast r other)) := by
  obtain ⟨cs, here⟩ := covers.castAll family axes
  obtain ⟨ds, there⟩ := covers.castAll other axes
  rw [here, there]
  rw [mapM_eq_ok] at here there
  exact .ok ((plain.axes_of_cast there).trans (plain.axes_of_cast here).symm)

end ClassedAxis

namespace Histogram

theorem alike_new {axes others : List ClassedAxis}
    (same : others.map ClassedAxis.axis = axes.map ClassedAxis.axis) (kind : StorageKind)
    (family other : Family) :
    Alike Twin (Histogram.new r axes kind family) (Histogram.new r others kind other) := by
  have recast (family : Family) (axes : List ClassedAxis) :
      axes.mapM (·.inFamily r family) =
        (axes.map ClassedAxis.axis).mapM (ClassedAxis.cast r (some family)) := by
    rw [List.mapM_map]
    rfl
  have empty : others.isEmpty = axes.isEmpty := by
    rw [← List.isEmpty_map (f := ClassedAxis.axis), same, List.isEmpty_map]
  unfold Histogram.new
  rw [empty]
  split
  · exact .error (Error.config .noAxes)
  rw [recast, recast, same]
  refine (ClassedAxis.alike_casts covers plain _ _ _).bind fun cs ds same => ?_
  refine (Storage.alike_inFamily covers family other kind).bind fun s t kinds => ?_
  have extents : ds.map (·.axis.extent) = cs.map (·.axis.extent) := by
    simpa only [List.map_map, Function.comp_def] using congrArg (List.map Axis.extent) same
  exact .ok ⟨same, kinds.2.trans kinds.1.symm, congrArg (Bins.empty kind ∘ Layout.volume) extents⟩

theorem alike_ofParts (axes : List Axis) (bins : Bins) (family other : Family) :
    Alike Twin (ofParts r axes bins family) (ofParts r axes bins other) := by
  refine (ClassedAxis.alike_casts covers plain _ _ axes).bind fun cs ds same => ?_
  refine (Storage.alike_inFamily covers family other bins.kind).bind fun s t kinds => ?_
  exact .ok ⟨same, kinds.2.trans kinds.1.symm, rfl⟩

/-- An axis grows to the same one in each family. -/
theorem alike_growAxis (family other : Family) {c d : ClassedAxis} (same : d.axis = c.axis)
    (p : Axis.Placement) :
    Alike (fun here there => there.1.axis = here.1.axis ∧ there.2 = here.2)
      (growAxis r family c p) (growAxis r other d p) := by
  unfold growAxis
  rw [same]
  cases p.grown with
  | none => exact .ok ⟨same, rfl⟩
  | some new =>
    refine (ClassedAxis.alike_cast covers plain _ _ new).bind fun _ _ cast => ?_
    exact .ok ⟨cast, rfl⟩

theorem alike_growAll (family other : Family) {axes others : List ClassedAxis}
    (same : others.map ClassedAxis.axis = axes.map ClassedAxis.axis)
    (placements : List Axis.Placement) :
    Alike (fun here there => there.map (·.1.axis) = here.map (·.1.axis) ∧
        there.map (·.2) = here.map (·.2))
      ((axes.zip placements).mapM fun ap => growAxis r family ap.1 ap.2)
      ((others.zip placements).mapM fun ap => growAxis r other ap.1 ap.2) := by
  induction axes generalizing others placements with
  | nil =>
    rw [List.map_eq_nil_iff.mp same]
    exact .ok ⟨rfl, rfl⟩
  | cons c axes ih =>
    obtain ⟨d, others, rfl, first, rest⟩ := List.map_eq_cons_iff.mp same
    cases placements with
    | nil => exact .ok ⟨rfl, rfl⟩
    | cons p placements =>
      rw [List.zip_cons_cons, List.zip_cons_cons, List.mapM_cons, List.mapM_cons]
      refine (alike_growAxis covers plain family other first p).bind fun _ _ head => ?_
      refine (ih rest placements).bind fun _ _ tail => ?_
      exact .ok ⟨congrArg₂ List.cons head.1 tail.1, congrArg₂ List.cons head.2 tail.2⟩

end Histogram
end Casts

namespace Histogram
variable {r : Registry} {h g : Histogram}

/-! ### Operations in place -/

/-- The same end, with the same contents left. -/
structure Outcome.Twin (left right : Outcome) : Prop where
  state : left.state.Twin right.state
  result : right.result = left.result

theorem Outcome.twin_ofExcept (twin : h.Twin g) {x y : Except Error Histogram}
    (alike : Alike Histogram.Twin x y) : (ofExcept h x).Twin (ofExcept g y) := by
  cases alike with
  | ok both => exact ⟨both, rfl⟩
  | error e => exact ⟨twin, rfl⟩

/-- An error for an index shows the axis, and no axis shows its class. -/
theorem slotsAt_of_map_axis {axes others : List ClassedAxis} (indices : List Int)
    (same : others.map ClassedAxis.axis = axes.map ClassedAxis.axis) :
    slotsAt others indices = slotsAt axes indices := by
  induction axes generalizing others indices with
  | nil => rw [List.map_eq_nil_iff.mp same]
  | cons c axes ih =>
    obtain ⟨d, others, rfl, first, rest⟩ := List.map_eq_cons_iff.mp same
    cases indices with
    | nil => rfl
    | cons i indices =>
      have shown : d.render = c.render := congrArg Axis.render first
      rw [slotsAt, slotsAt, ih indices rest, first, shown]

namespace Twin
variable (twin : h.Twin g)
include twin

theorem rank_eq : g.rank = h.rank := by
  rw [← length_bareAxes, twin.axes, length_bareAxes]

theorem extents_eq : g.extents = h.extents := congrArg (List.map Axis.extent) twin.axes

theorem locate_eq (coords : List Coord) : g.locate coords = h.locate coords := by
  rw [locate, locate, twin.rank_eq, twin.axes]

theorem position?_eq (placements : List Axis.Placement) :
    g.position? placements = h.position? placements := by
  rw [position?, position?, twin.axes, twin.extents_eq]

theorem enter_eq (placements : List Axis.Placement) (weight sample : Option Float) :
    g.enter placements weight sample = h.enter placements weight sample := by
  rw [enter, enter, twin.position?_eq, twin.bins]

theorem withBins (bins : Bins) : Twin { h with bins } { g with bins } :=
  ⟨twin.axes, twin.kind, rfl⟩

section
variable (covers : r.Covers) (plain : r.Plain)
include covers plain

theorem grow (placements : List Axis.Placement) :
    Alike Twin (h.grow r placements) (g.grow r placements) := by
  unfold Histogram.grow
  refine (alike_growAll covers plain _ _ twin.axes placements).bind fun here there same => ?_
  obtain ⟨axes, routes⟩ := same
  rw [twin.rank_eq, twin.extents_eq, twin.bins, routes]
  refine .ok ⟨?_, twin.kind, rfl⟩
  simpa only [bareAxes, List.map_map, Function.comp_def] using axes

theorem roomFor (placements : List Axis.Placement) :
    Alike Twin (h.roomFor r placements) (g.roomFor r placements) := by
  unfold Histogram.roomFor
  split
  · exact twin.grow covers plain placements
  · exact .ok twin

theorem record (coords : List Coord) (weight sample : Option Float) :
    Alike Twin (h.record r coords weight sample) (g.record r coords weight sample) := by
  rw [record_eq_bind, record_eq_bind, twin.kind, twin.locate_eq]
  refine .bind_self fun _ => ?_
  refine .bind_self fun placements => ?_
  refine (twin.roomFor covers plain placements).bind fun grown _ after => ?_
  rw [after.enter_eq]
  exact .ok (after.withBins _)

theorem fill (coords : List Coord) (weight sample : Option Float) :
    (h.fill r coords weight sample).Twin (g.fill r coords weight sample) :=
  Outcome.twin_ofExcept twin (twin.record covers plain coords weight sample)

theorem fillAll (samples : List (List Coord)) :
    (h.fillAll r samples).Twin (g.fillAll r samples) := by
  induction samples generalizing h g with
  | nil => exact ⟨twin, rfl⟩
  | cons coords rest ih =>
    have first := twin.record covers plain coords none none
    unfold Histogram.fillAll
    generalize h.record r coords = here, g.record r coords = there at first
    cases first with
    | ok after => exact ih after
    | error e => exact ⟨twin, rfl⟩

theorem fillValues (values : List Coord) :
    (h.fillValues r values).Twin (g.fillValues r values) := by
  unfold Histogram.fillValues
  rw [twin.rank_eq]
  split
  · exact ⟨twin, rfl⟩
  · exact twin.fillAll covers plain _

end

/-- The error for a growing axis shows the axis, which does not show its class. -/
theorem recordShared (coords : List Coord) :
    Alike Twin (h.recordShared coords) (g.recordShared coords) := by
  have growing (k : Histogram) : (k.axes.find? (·.axis.options.growth)).map ClassedAxis.axis =
      k.bareAxes.find? (·.options.growth) := by
    rw [bareAxes, List.find?_map]
    rfl
  have found : (g.axes.find? (·.axis.options.growth)).map ClassedAxis.axis =
      (h.axes.find? (·.axis.options.growth)).map ClassedAxis.axis := by
    rw [growing, growing, twin.axes]
  unfold Histogram.recordShared
  cases here : h.axes.find? (·.axis.options.growth) with
  | some c =>
    rw [here] at found
    obtain ⟨d, there, same⟩ := Option.map_eq_some_iff.mp found
    have shown : d.render = c.render := congrArg Axis.render same
    rw [there]
    simp only [shown]
    exact .error (Error.capability (.growingConcurrently c.render))
  | none =>
    rw [here] at found
    rw [Option.map_eq_none_iff.mp found]
    simp only [twin.kind, twin.locate_eq, twin.position?_eq, twin.bins]
    split
    · exact .error (Error.capability (.concurrentStorage h.storage.kind))
    refine .bind_self fun placements => ?_
    cases h.position? placements with
    | none => exact .ok twin
    | some j =>
      refine .bind_self fun bins => ?_
      exact .ok (twin.withBins bins)

theorem fillShared (coords : List Coord) : (h.fillShared coords).Twin (g.fillShared coords) :=
  Outcome.twin_ofExcept twin (twin.recordShared coords)

theorem scale (factor : Float) : (h.scale factor).Twin (g.scale factor) := by
  refine Outcome.twin_ofExcept twin ?_
  rw [twin.bins]
  refine .bind_self fun bins => ?_
  exact .ok (twin.withBins bins)

theorem reset : h.reset.Twin g.reset := by
  unfold Histogram.reset
  rw [twin.bins]
  exact twin.withBins _

/-! ### New histograms -/

section
variable (covers : r.Covers) (plain : r.Plain)
include covers plain

theorem reduce (routes : List Route) (order : List Nat) :
    Alike Selection.Twin (h.reduce r routes order) (g.reduce r routes order) := by
  have same : g.gathered routes order = h.gathered routes order := by
    rw [gathered, gathered, twin.bins, twin.extents_eq]
  by_cases none_stay : Reduction.axes routes order = []
  · rw [reduce_of_none_stay none_stay, reduce_of_none_stay none_stay, same]
    exact .ok (.value _)
  · rw [reduce_of_some_stay none_stay, reduce_of_some_stay none_stay, same]
    refine (alike_ofParts covers plain _ _ _ _).bind fun _ _ parts => ?_
    exact .ok (.histogram parts)

theorem index (entries : List Index) :
    Alike Selection.Twin (h.index r entries) (g.index r entries) := by
  rw [index_eq_bind, index_eq_bind, twin.axes, twin.rank_eq]
  refine .bind_self fun routes => ?_
  exact twin.reduce covers plain routes _

theorem project (kept : List Nat) :
    Alike Twin (h.project r kept) (g.project r kept) := by
  unfold Histogram.project
  rw [twin.axes, twin.rank_eq]
  split
  · exact .error (Error.index .emptyProjection)
  refine .bind_self fun _ => ?_
  refine (twin.reduce covers plain _ kept).bind fun here there reduced => ?_
  cases reduced with
  | value => exact .error (Error.index .axislessProjection)
  | histogram projected => exact .ok projected

end

/-! ### Pairs -/

section
variable {other twinned : Histogram} (others : other.Twin twinned)
include others

theorem beq_axes : (g.axes == twinned.axes) = (h.axes == other.axes) := by
  have left : g.axes.map ClassedAxis.axis = h.axes.map ClassedAxis.axis := twin.axes
  have right : twinned.axes.map ClassedAxis.axis = other.axes.map ClassedAxis.axis := others.axes
  rw [ClassedAxis.beq_map_axis, ClassedAxis.beq_map_axis, left, right]

theorem beq_storage : (g.storage == twinned.storage) = (h.storage == other.storage) :=
  congrArg₂ (fun s t : StorageKind => s == t) twin.kind others.kind

theorem add : Alike Twin (h.add other) (g.add twinned) := by
  unfold Histogram.add
  rw [twin.beq_axes others, twin.beq_storage others, twin.bins, others.bins]
  split
  · exact .ok (twin.withBins _)
  · exact .error (Error.capability .unequalOperands)

end

/-! ### Readings -/

theorem contentAt_eq (indices : List Int) : g.contentAt indices = h.contentAt indices := by
  rw [contentAt, contentAt, twin.rank_eq, twin.extents_eq, twin.bins,
    slotsAt_of_map_axis indices twin.axes]

theorem sum_eq (flow : Bool) : g.sum flow = h.sum flow := by
  rw [sum, sum, twin.axes, twin.bins, twin.extents_eq]

end Twin
end Histogram
end Binning
