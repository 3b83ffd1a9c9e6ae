import Binning.Proofs.Histogram.Casts
import Binning.Proofs.Histogram.Groups
import Binning.Proofs.Registry.Casts
import Binning.Proofs.Storage.Counts

/-! The classes of a histogram. Every operation that makes an axis casts it again, and in
the family of the histogram, so whatever has been filled, cut and summed since, each class
is the one that the family casts the type to which its axis has now. -/
namespace Binning
open Results

namespace ClassedAxis
variable {r : Registry} {family : Option Family} {a : Axis} {c : ClassedAxis}

/-- The class is the one that the axis is cast to. -/
def Classed (r : Registry) (family : Option Family) (c : ClassedAxis) : Prop :=
  r.castClass family (.axis c.axis.kind) .axis = .ok c.cls

/-- A converter that keeps the shape of an axis keeps its type, so a second cast would go
to the same class. -/
theorem classed_of_cast (keeps : r.KeepsShape) (done : cast r family a = .ok c) :
    c.Classed r family := by
  obtain ⟨label, shape⟩ := axis_of_cast keeps done
  simp only [cast, Registry.castAxis, bind_eq_ok, pure_eq_ok] at done
  obtain ⟨_, ⟨cls, found, rfl⟩, rfl⟩ := done
  unfold Classed
  rw [shape]
  exact found

theorem classed_of_casts (keeps : r.KeepsShape) {axes : List Axis} {classed : List ClassedAxis}
    (done : List.Forall₂ (fun a c => cast r family a = .ok c) axes classed) :
    ∀ c ∈ classed, c.Classed r family := by
  induction done with
  | nil => exact fun _ none => absurd none List.not_mem_nil
  | cons first _ ih => exact List.forall_mem_cons.mpr ⟨classed_of_cast keeps first, ih⟩

end ClassedAxis

namespace Histogram
variable {r : Registry} {family : Family} {h g : Histogram}

/-! ### Histograms of a family -/

/-- The histograms that come from a new one of the family, under one registry. What is
added to them may come from anywhere. -/
inductive Descends (r : Registry) (family : Family) : Histogram → Prop where
  | new {axes : List ClassedAxis} {kind : StorageKind} {h : Histogram} :
      Histogram.new r axes kind family = .ok h → Descends r family h
  | fill {h : Histogram} (coords : List Coord) (weight sample : Option Float) :
      Descends r family h → Descends r family (h.fill r coords weight sample).state
  | fillAll {h : Histogram} (samples : List (List Coord)) :
      Descends r family h → Descends r family (h.fillAll r samples).state
  | fillValues {h : Histogram} (values : List Coord) :
      Descends r family h → Descends r family (h.fillValues r values).state
  | fillShared {h : Histogram} (coords : List Coord) :
      Descends r family h → Descends r family (h.fillShared coords).state
  | index {h selected : Histogram} {entries : List Index} :
      Descends r family h → h.index r entries = .ok (.histogram selected) →
        Descends r family selected
  | project {h projected : Histogram} {kept : List Nat} :
      Descends r family h → h.project r kept = .ok projected → Descends r family projected
  | add {h other total : Histogram} :
      Descends r family h → h.add other = .ok total → Descends r family total
  | scale {h : Histogram} (factor : Float) :
      Descends r family h → Descends r family (h.scale factor).state
  | reset {h : Histogram} : Descends r family h → Descends r family h.reset

/-- Every class is the one that the family casts the type to which it stands for. -/
structure Classed (r : Registry) (family : Family) (h : Histogram) : Prop where
  own : h.family = family
  axes : ∀ c ∈ h.axes, c.Classed r (some family)
  storage : r.castClass (some family) (.storage h.bins.kind) .storage = .ok h.storage.cls
  kind : h.storage.kind = h.bins.kind

theorem classed_new (keeps : r.KeepsShape) {axes : List ClassedAxis} {kind : StorageKind}
    (done : Histogram.new r axes kind family = .ok h) : h.Classed r family := by
  simp only [Histogram.new, guard_eq_ok, bind_eq_ok, mapM_eq_ok, pure_eq_ok] at done
  obtain ⟨_, classed, cast, storage, stored, rfl⟩ := done
  obtain ⟨stored, kind⟩ := Storage.inFamily_eq_ok.mp stored
  refine ⟨rfl, ?_, ?_, ?_⟩
  · exact ClassedAxis.classed_of_casts keeps (List.forall₂_map_left_iff.mpr cast)
  · rw [Bins.kind_empty]
    exact stored
  · rw [Bins.kind_empty]
    exact kind

theorem classed_of_ofParts (keeps : r.KeepsShape) {axes : List Axis} {bins : Bins}
    (done : ofParts r axes bins family = .ok h) : h.Classed r family := by
  simp only [ofParts, bind_eq_ok, mapM_eq_ok, pure_eq_ok] at done
  obtain ⟨classed, cast, storage, stored, rfl⟩ := done
  obtain ⟨stored, kind⟩ := Storage.inFamily_eq_ok.mp stored
  exact ⟨rfl, ClassedAxis.classed_of_casts keeps cast, stored, kind⟩

/-- An axis that stays has its class already, and one that grows is cast again. -/
theorem classed_of_growAxis (keeps : r.KeepsShape) {c : ClassedAxis} {p : Axis.Placement}
    {grown : ClassedAxis × Route} (before : c.Classed r (some family))
    (done : growAxis r family c p = .ok grown) : grown.1.Classed r (some family) := by
  unfold growAxis at done
  split at done
  · simp only [bind_eq_ok, pure_eq_ok] at done
    obtain ⟨new, cast, rfl⟩ := done
    exact ClassedAxis.classed_of_cast keeps cast
  · cases done
    exact before

namespace Classed
variable (classed : h.Classed r family)
include classed

/-- Contents of the same kind go with the same classes. -/
theorem exchange {bins : Bins} (kind : bins.kind = h.bins.kind) :
    { h with bins }.Classed r family :=
  ⟨classed.own, classed.axes, kind ▸ classed.storage, classed.kind.trans kind.symm⟩

theorem grow (keeps : r.KeepsShape) {placements : List Axis.Placement}
    (done : h.grow r placements = .ok g) : g.Classed r family := by
  simp only [Histogram.grow, bind_eq_ok, pure_eq_ok, mapM_eq_ok] at done
  obtain ⟨grown, grows, rfl⟩ := done
  refine ⟨classed.own, fun c among => ?_, ?_, ?_⟩
  · obtain ⟨pair, listed, rfl⟩ := List.mem_map.mp among
    obtain ⟨k, below, rfl⟩ := List.getElem_of_mem listed
    have inside : k < (h.axes.zip placements).length := grows.length_eq ▸ below
    have before := (List.of_mem_zip (List.getElem_mem inside)).1
    have step := grows.get inside below
    rw [classed.own] at step
    exact classed_of_growAxis keeps (classed.axes _ before) step
  · exact (Bins.kind_gather ..).symm ▸ classed.storage
  · exact classed.kind.trans (Bins.kind_gather ..).symm

theorem record (keeps : r.KeepsShape) {coords : List Coord} {weight sample : Option Float}
    (done : h.record r coords weight sample = .ok g) : g.Classed r family := by
  obtain ⟨_, placements, grown, _, grows, rfl⟩ := record_eq_ok done
  rcases grows with ⟨rfl, _⟩ | grows
  · exact classed.exchange (kind_enter ..)
  · exact (classed.grow keeps grows).exchange (kind_enter ..)

theorem fill (keeps : r.KeepsShape) (coords : List Coord) (weight sample : Option Float) :
    (h.fill r coords weight sample).state.Classed r family := by
  unfold Histogram.fill
  cases done : h.record r coords weight sample with
  | ok => exact classed.record keeps done
  | error => exact classed

theorem fillAll (keeps : r.KeepsShape) (samples : List (List Coord)) :
    (h.fillAll r samples).state.Classed r family := by
  induction samples generalizing h with
  | nil => exact classed
  | cons first rest ih =>
    cases done : h.record r first with
    | ok =>
      rw [fillAll_of_ok done]
      exact ih (classed.record keeps done)
    | error =>
      rw [fillAll_of_error done]
      exact classed

theorem fillValues (keeps : r.KeepsShape) (values : List Coord) :
    (h.fillValues r values).state.Classed r family := by
  unfold Histogram.fillValues
  split
  · exact classed
  · exact classed.fillAll keeps _

theorem fillShared (coords : List Coord) : (h.fillShared coords).state.Classed r family := by
  unfold Histogram.fillShared
  cases done : h.recordShared coords with
  | error => exact classed
  | ok =>
    obtain ⟨_, _, placements, _, rfl⟩ := recordShared_eq_ok done
    exact classed.exchange (kind_enter ..)

theorem reduce (keeps : r.KeepsShape) {routes : List Route} {order : List Nat}
    (done : h.reduce r routes order = .ok (.histogram g)) : g.Classed r family := by
  unfold Histogram.reduce Reduction.gather at done
  simp only at done
  split at done
  · cases done
  · obtain ⟨_, parts, same⟩ := map_eq_ok.mp done
    cases same
    exact classed_of_ofParts keeps (classed.own ▸ parts)

theorem index (keeps : r.KeepsShape) {entries : List Index}
    (done : h.index r entries = .ok (.histogram g)) : g.Classed r family := by
  obtain ⟨_, _, _, _, reduced⟩ := index_eq_ok done
  exact classed.reduce keeps reduced

theorem project (keeps : r.KeepsShape) {kept : List Nat} (done : h.project r kept = .ok g) :
    g.Classed r family := by
  simp only [Histogram.project, guard_eq_ok, bind_eq_ok, mapError_eq_ok] at done
  obtain ⟨_, _, _, out, reduced, done⟩ := done
  split at done
  · cases done
    exact classed.reduce keeps reduced
  · cases done

theorem add {other : Histogram} (done : h.add other = .ok g) : g.Classed r family := by
  obtain ⟨_, _, rfl⟩ := add_eq_ok.mp done
  exact classed.exchange (Bins.kind_addAll ..)

theorem scale (factor : Float) : (h.scale factor).state.Classed r family := by
  unfold Histogram.scale
  cases done : h.bins.scale factor with
  | ok => exact classed.exchange (Bins.length_scale done).2
  | error => exact classed

theorem reset : h.reset.Classed r family := classed.exchange (Bins.kind_empty ..)

end Classed

theorem Descends.classed (descends : h.Descends r family) (keeps : r.KeepsShape) :
    h.Classed r family := by
  induction descends with
  | new done => exact classed_new keeps done
  | fill coords weight sample _ classed => exact classed.fill keeps coords weight sample
  | fillAll samples _ classed => exact classed.fillAll keeps samples
  | fillValues values _ classed => exact classed.fillValues keeps values
  | fillShared coords _ classed => exact classed.fillShared coords
  | index _ done classed => exact classed.index keeps done
  | project _ done classed => exact classed.project keeps done
  | add _ done classed => exact classed.add done
  | scale factor _ classed => exact classed.scale factor
  | reset _ classed => exact classed.reset

/-! ### All classes -/

/-- What holds of the classes of a histogram. -/
structure Coherent (r : Registry) (family : Family) (h : Histogram) : Prop
    extends Classed r family h where
  /-- An older name of a class of the main family is that of no axis. -/
  spared : ∀ c ∈ h.axes, ∀ name ∈ Registry.retiredClasses,
    ¬ (c.cls.name = name ∧ c.cls.family = .main)
  /-- The steps that cast axes again go through. -/
  grows : ∀ placements, ∃ g, h.grow r placements = .ok g
  reduces : ∀ routes order, ∃ out, h.reduce r routes order = .ok out

/-- A histogram can be made in every family, and all that descends from it has the classes
of that family. -/
theorem classes_of_known (known : r.Known) (keeps : r.KeepsShape) (family : Family) :
    (∀ axes kind, axes ≠ [] → ∃ h, Histogram.new r axes kind family = .ok h) ∧
      ∀ h, Descends r family h → h.Coherent r family := by
  have covers := known.covers
  obtain ⟨_, registered⟩ := Registry.Registered.of_known known
  refine ⟨fun axes kind some_axis => new_of_covers covers some_axis kind family, ?_⟩
  intro h descends
  have classed := descends.classed keeps
  refine ⟨classed, fun c among name retired => ?_, grow_of_covers covers h, ?_⟩
  · exact registered.consistent.spared name retired _ _ _ _ (classed.axes c among)
  · exact fun routes order => reduce_of_covers covers routes order

theorem keepsShape_withLabelled : Registry.withLabelled.KeepsShape := by
  intro e among convert converts a
  rcases List.mem_cons.mp among with rfl | older
  · cases converts
    exact ⟨rfl, rfl⟩
  · exact Registry.builtin_keepsShape e older convert converts a

/-- Even bins that were asked for by the older name become explicit edges when they are
put in groups that do not divide them, and their class follows. -/
theorem coherent_evenPairs : ∃ even h pairs,
    ClassedAxis.makeRetired .withLabelled (.regular 5 0 5 .id) = .ok even ∧
      Histogram.new .withLabelled [even] .int = .ok h ∧
      h.index .withLabelled (groupsOf 2) = .ok (.histogram pairs) ∧
      (even.cls.name = "regular" ∧ pairs.axes.map (·.cls.name) = ["Variable"]) ∧
      pairs.Coherent .withLabelled .main := by
  have steps : ∃ even h pairs,
      ClassedAxis.makeRetired .withLabelled (.regular 5 0 5 .id) = .ok even ∧
        Histogram.new .withLabelled [even] .int = .ok h ∧
        h.index .withLabelled (groupsOf 2) = .ok (.histogram pairs) ∧
        (even.cls.name = "regular" ∧ pairs.axes.map (·.cls.name) = ["Variable"]) :=
    ⟨_, _, _, rfl, rfl, rfl, rfl, rfl⟩
  obtain ⟨even, h, pairs, made, new, grouped, names⟩ := steps
  have known : Registry.withLabelled.Known :=
    .register .builtin (Registry.InPlace.run_register_eq_ok.mp Registry.run_register_labelled)
  have classes := classes_of_known known keepsShape_withLabelled .main
  exact ⟨even, h, pairs, made, new, grouped, names,
    classes.2 pairs (.index (.new new) grouped)⟩

end Histogram
end Binning
