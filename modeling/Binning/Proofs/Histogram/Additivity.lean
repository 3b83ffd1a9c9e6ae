import Binning.Histogram.Read
import Binning.Proofs.Histogram.Reachable
import Binning.Proofs.Histogram.Reductions
import Binning.Proofs.Storage.Equality

/-! Sums of histograms. Over the same axes, adding two histograms of whole counts
and reducing what they make is the same as reducing both and adding what is left
of them, and histograms add like numbers. -/
namespace Binning
open Results

/-- What two reductions leave, added: cells of one kind are merged. -/
def Selection.add (kind : StorageKind) : Selection → Selection → Except Error Selection
  | .value x, .value y => return .value (kind.merge x y)
  | .histogram h, .histogram g => .histogram <$> h.add g
  | _, _ => throw (.capability .unequalOperands)

/-- The axes compare equal to themselves: none of their numbers is NaN. -/
def SelfEqual (axes : List Axis) : Prop := ∀ a ∈ axes, (a == a) = true

instance (axes : List Axis) : Decidable (SelfEqual axes) :=
  inferInstanceAs (Decidable (∀ a ∈ axes, (a == a) = true))

namespace Histogram

/-- Histograms of whole counts, of one kind and one family, over the same axes. -/
structure Addable (h g : Histogram) : Prop where
  axes : g.bareAxes = h.bareAxes
  selfEqual : SelfEqual h.bareAxes
  kind : g.storage.kind = h.storage.kind
  integral : h.storage.kind.isIntegral = true
  family : g.family = h.family

/-- The axes of the first and the contents of both. -/
def plus (h g : Histogram) : Histogram := { h with bins := h.bins.addAll g.bins }

@[simp] theorem bareAxes_plus (h g : Histogram) : (h.plus g).bareAxes = h.bareAxes := rfl

@[simp] theorem rank_plus (h g : Histogram) : (h.plus g).rank = h.rank := rfl

@[simp] theorem family_plus (h g : Histogram) : (h.plus g).family = h.family := rfl

variable {r : Registry} {a b c : Histogram}

theorem Addable.symm (addable : a.Addable b) : b.Addable a where
  axes := addable.axes.symm
  selfEqual := addable.axes ▸ addable.selfEqual
  kind := addable.kind.symm
  integral := addable.kind ▸ addable.integral
  family := addable.family.symm

theorem Addable.trans (addable : a.Addable b) (other : b.Addable c) : a.Addable c where
  axes := other.axes.trans addable.axes
  selfEqual := addable.selfEqual
  kind := other.kind.trans addable.kind
  integral := addable.integral
  family := other.family.trans addable.family

theorem axes_beq (same : b.bareAxes = a.bareAxes) (selfEqual : SelfEqual a.bareAxes) :
    (a.axes == b.axes) = true := by
  unfold bareAxes at same selfEqual
  apply list_beq_iff_forall₂.mpr
  generalize a.axes = xs at *
  generalize b.axes = ys at *
  induction xs generalizing ys with
  | nil =>
    rw [List.map_eq_nil_iff.mp same]
    exact .nil
  | cons x xs ih =>
    cases ys with
    | nil => contradiction
    | cons y ys =>
      obtain ⟨first, rest⟩ := List.cons.inj same
      obtain ⟨head, tail⟩ := List.forall_mem_cons.mp selfEqual
      refine .cons ?_ (ih tail ys rest)
      change (x.axis == y.axis) = true
      rw [first, head]

theorem add_of_same (axes : b.bareAxes = a.bareAxes) (selfEqual : SelfEqual a.bareAxes)
    (kind : b.storage.kind = a.storage.kind) : a.add b = .ok (a.plus b) := by
  have storage : (a.storage == b.storage) = (a.storage.kind == b.storage.kind) := rfl
  unfold Histogram.add
  rw [axes_beq axes selfEqual, storage, kind, beq_self_eq_true]
  rfl

theorem Addable.add_eq (addable : a.Addable b) : a.add b = .ok (a.plus b) :=
  add_of_same addable.axes addable.selfEqual addable.kind

theorem Addable.extents (addable : a.Addable b) : b.extents = a.extents :=
  congrArg (List.map Axis.extent) addable.axes

theorem Addable.rank (addable : a.Addable b) : b.rank = a.rank := by
  rw [← length_bareAxes, ← length_bareAxes, addable.axes]

theorem Addable.integral_bins (addable : a.Addable b) (left : a.Sound) :
    a.bins.kind.isIntegral = true :=
  left.kind ▸ addable.integral

section
variable (addable : a.Addable b) (left : a.Sound) (right : b.Sound)
include addable left right

theorem Addable.kind_bins : b.bins.kind = a.bins.kind := by
  rw [← left.kind, ← right.kind, addable.kind]

theorem Addable.length_bins : b.bins.length = a.bins.length := by
  rw [left.length, right.length, addable.extents]

/-- Both histograms gather into slots of their own, and the slots are added. -/
theorem Addable.gathered_plus (routes : List Route) (order : List Nat) :
    (a.plus b).gathered routes order =
      (a.gathered routes order).addAll (b.gathered routes order) := by
  unfold gathered Reduction.gather
  rw [addable.extents]
  exact Bins.gather_addAll (addable.integral_bins left) (addable.kind_bins left right)
    (addable.length_bins left right) _ _

theorem Addable.get_gathered_plus (routes : List Route) (order : List Nat)
    (none_stay : Reduction.axes routes order = []) :
    ((a.plus b).gathered routes order).get 0 =
      a.storage.kind.merge ((a.gathered routes order).get 0) ((b.gathered routes order).get 0) := by
  have apart := Bins.not_unlimited_of_isIntegral (addable.integral_bins left)
  rw [addable.gathered_plus left right, Bins.get_addAll]
  · rw [kind_gathered, left.kind]
  · rwa [kind_gathered]
  · rw [kind_gathered, kind_gathered, addable.kind_bins left right]
  · rw [length_gathered, length_gathered]
  · rw [length_gathered, none_stay]
    exact Nat.one_pos

/-- Casting the parts of a sum is adding what is cast of the parts. -/
theorem Addable.ofParts_plus {axes : List Axis} {routes : List Route} {order : List Nat}
    (selfEqual : ∀ cast, ofParts r axes (a.gathered routes order) a.family = .ok cast →
      SelfEqual cast.bareAxes) :
    ofParts r axes ((a.plus b).gathered routes order) (a.plus b).family = (do
      let first ← ofParts r axes (a.gathered routes order) a.family
      let second ← ofParts r axes (b.gathered routes order) b.family
      first.add second) := by
  have kind : (b.gathered routes order).kind = (a.gathered routes order).kind := by
    rw [kind_gathered, kind_gathered, addable.kind_bins left right]
  rw [addable.gathered_plus left right]
  simp only [ofParts, family_plus, addable.family, kind, Bins.kind_addAll] at selfEqual ⊢
  cases cast : axes.mapM (ClassedAxis.cast r (some a.family)) with
  | error => rfl
  | ok classed =>
    cases stored : Storage.inFamily r a.family (a.gathered routes order).kind with
    | error => rfl
    | ok storage =>
      rw [cast, stored] at selfEqual
      exact (add_of_same (a := ⟨classed, storage, a.gathered routes order, a.family⟩)
        (b := ⟨classed, storage, b.gathered routes order, a.family⟩) rfl (selfEqual _ rfl)
        rfl).symm

theorem Addable.reduce_plus {routes : List Route} {order : List Nat}
    (selfEqual : ∀ reduced, a.reduce r routes order = .ok (.histogram reduced) →
      SelfEqual reduced.bareAxes) :
    (a.plus b).reduce r routes order = (do
      let first ← a.reduce r routes order
      let second ← b.reduce r routes order
      first.add a.storage.kind second) := by
  by_cases none_stay : Reduction.axes routes order = []
  · rw [reduce_of_none_stay none_stay, reduce_of_none_stay none_stay,
      reduce_of_none_stay none_stay, addable.get_gathered_plus left right _ _ none_stay]
    rfl
  · rw [reduce_of_some_stay none_stay] at selfEqual
    rw [reduce_of_some_stay none_stay, reduce_of_some_stay none_stay,
      reduce_of_some_stay none_stay, addable.ofParts_plus left right]
    · cases ofParts r (Reduction.axes routes order) (a.gathered routes order) a.family with
      | error => rfl
      | ok first =>
        cases ofParts r (Reduction.axes routes order) (b.gathered routes order) b.family <;> rfl
    · intro cast parts
      exact selfEqual cast (by rw [parts]; rfl)

theorem Addable.index_plus {entries : List Index}
    (selfEqual : ∀ selected, a.index r entries = .ok (.histogram selected) →
      SelfEqual selected.bareAxes) :
    (a.plus b).index r entries = (do
      let first ← a.index r entries
      let second ← b.index r entries
      first.add a.storage.kind second) := by
  rw [index_eq_bind] at selfEqual
  rw [index_eq_bind, index_eq_bind, index_eq_bind, bareAxes_plus, rank_plus, addable.axes,
    addable.rank]
  cases routed : Index.routes a.bareAxes entries with
  | error => rfl
  | ok routes =>
    rw [routed] at selfEqual
    exact addable.reduce_plus left right selfEqual

theorem Addable.project_plus {kept : List Nat}
    (selfEqual : ∀ projected, a.project r kept = .ok projected → SelfEqual projected.bareAxes) :
    (a.plus b).project r kept = (do
      let first ← a.project r kept
      let second ← b.project r kept
      first.add second) := by
  by_cases some_kept : kept = []
  · rw [some_kept]
    rfl
  cases checked : checkKept a.rank [] kept with
  | error =>
    rw [project_of_not_checked (h := a.plus b) checked, project_of_not_checked checked]
    rfl
  | ok =>
    rw [project_of_checked some_kept checked] at selfEqual ⊢
    rw [project_of_checked (h := a.plus b) some_kept checked, bareAxes_plus, family_plus,
      project_of_checked some_kept (addable.rank ▸ checked), addable.axes]
    exact addable.ofParts_plus left right selfEqual

theorem Addable.sum_plus (flow : Bool) :
    (a.plus b).sum flow = a.storage.kind.merge (a.sum flow) (b.sum flow) := by
  have same : b.bareAxes.map (fun x => Route.sum x 0 x.size flow flow) =
      a.bareAxes.map fun x => Route.sum x 0 x.size flow flow := by
    rw [addable.axes]
  have added := addable.get_gathered_plus left right
    (a.bareAxes.map fun x => Route.sum x 0 x.size flow flow) [] rfl
  unfold gathered at added
  unfold Histogram.sum
  rw [bareAxes_plus, same]
  exact added

end

/-! ### Failures -/

/-- Nothing that a reduction can fail for depends on the contents. -/
theorem reduce_plus_ok_iff (routes : List Route) (order : List Nat) :
    (∃ out, (a.plus b).reduce r routes order = .ok out) ↔
      ∃ out, a.reduce r routes order = .ok out := by
  have kind : (a.plus b).bins.kind = a.bins.kind := Bins.kind_addAll ..
  rw [reduce_ok_iff, reduce_ok_iff, kind, family_plus]

theorem index_plus_ok_iff (entries : List Index) :
    (∃ out, (a.plus b).index r entries = .ok out) ↔ ∃ out, a.index r entries = .ok out := by
  simp only [index_eq_bind, bind_eq_ok, bareAxes_plus, rank_plus]
  constructor
  · rintro ⟨out, routes, routed, done⟩
    obtain ⟨out, done⟩ := (reduce_plus_ok_iff routes _).mp ⟨out, done⟩
    exact ⟨out, routes, routed, done⟩
  · rintro ⟨out, routes, routed, done⟩
    obtain ⟨out, done⟩ := (reduce_plus_ok_iff routes _).mpr ⟨out, done⟩
    exact ⟨out, routes, routed, done⟩

theorem project_plus_ok_iff (kept : List Nat) :
    (∃ out, (a.plus b).project r kept = .ok out) ↔ ∃ out, a.project r kept = .ok out := by
  have kind : (a.plus b).bins.kind = a.bins.kind := Bins.kind_addAll ..
  by_cases some_kept : kept = []
  · rw [some_kept]
    exact Iff.rfl
  cases checked : checkKept a.rank [] kept with
  | error => rw [project_of_not_checked (h := a.plus b) checked, project_of_not_checked checked]
  | ok =>
    rw [project_of_checked (h := a.plus b) some_kept checked,
      project_of_checked some_kept checked, ofParts_ok_iff, ofParts_ok_iff, kind_gathered,
      kind_gathered, kind, family_plus]
    rfl

/-! ### Laws -/

/-- Reducing `total` is reducing `a` and `b` and adding what is left of them. -/
structure Additive (a b total : Histogram) : Prop where
  index_ok_iff : ∀ (r : Registry) (entries : List Index),
    (∃ out, total.index r entries = .ok out) ↔ ∃ out, a.index r entries = .ok out
  index : ∀ (r : Registry) (entries : List Index),
    (∀ selected, a.index r entries = .ok (.histogram selected) → SelfEqual selected.bareAxes) →
      total.index r entries = (do
        let first ← a.index r entries
        let second ← b.index r entries
        first.add a.storage.kind second)
  project_ok_iff : ∀ (r : Registry) (kept : List Nat),
    (∃ out, total.project r kept = .ok out) ↔ ∃ out, a.project r kept = .ok out
  project : ∀ (r : Registry) (kept : List Nat),
    (∀ projected, a.project r kept = .ok projected → SelfEqual projected.bareAxes) →
      total.project r kept = (do
        let first ← a.project r kept
        let second ← b.project r kept
        first.add second)
  sum : ∀ flow, total.sum flow = a.storage.kind.merge (a.sum flow) (b.sum flow)

/-- Equal but for the classes of the axes and of the storage. -/
structure Agrees (h g : Histogram) : Prop where
  axes : g.bareAxes = h.bareAxes
  kind : g.storage.kind = h.storage.kind
  bins : g.bins = h.bins
  family : g.family = h.family

theorem Agrees.beq (agrees : a.Agrees b) (selfEqual : SelfEqual a.bareAxes)
    (integral : a.bins.kind.isIntegral = true) : (a == b) = true := by
  have storage : (a.storage == b.storage) = (a.storage.kind == b.storage.kind) := rfl
  change (a.axes == b.axes && a.storage == b.storage && a.bins == b.bins) = true
  rw [axes_beq agrees.axes selfEqual, storage, agrees.kind, agrees.bins,
    Bins.beq_self a.bins integral, beq_self_eq_true]
  rfl

theorem Addable.additive (addable : a.Addable b) (left : a.Sound) (right : b.Sound) :
    Additive a b (a.plus b) where
  index_ok_iff _ := index_plus_ok_iff
  index _ _ := addable.index_plus left right
  project_ok_iff _ := project_plus_ok_iff
  project _ _ := addable.project_plus left right
  sum := addable.sum_plus left right

theorem Addable.agrees (addable : a.Addable b) (left : a.Sound) (right : b.Sound) :
    (a.plus b).Agrees (b.plus a) where
  axes := addable.axes
  kind := addable.kind
  bins := (Bins.addAll_comm (addable.integral_bins left) (addable.kind_bins left right)
    (addable.length_bins left right)).symm
  family := addable.family

theorem Addable.plus_plus (addable : a.Addable b) (other : a.Addable c) (first : a.Sound)
    (second : b.Sound) (third : c.Sound) : (a.plus b).plus c = a.plus (b.plus c) := by
  unfold plus
  rw [Bins.addAll_assoc (addable.integral_bins first) (addable.kind_bins first second)
    (addable.length_bins first second) (other.kind_bins first third)
    (other.length_bins first third)]

/-- Histograms of whole counts add like numbers, and reductions are additive. -/
theorem Reachable.add_additive (left : a.Reachable) (right : b.Reachable)
    (addable : a.Addable b) :
    ∃ total, a.add b = .ok total ∧ Additive a b total ∧
      (∃ swapped, b.add a = .ok swapped ∧ total.Agrees swapped ∧ (total == swapped) = true) ∧
      ∀ c : Histogram, c.Reachable → a.Addable c → ∃ all,
        a.add b >>= (·.add c) = .ok all ∧ b.add c >>= (a.add ·) = .ok all := by
  have first := left.sound
  have second := right.sound
  have agrees := addable.agrees first second
  refine ⟨a.plus b, addable.add_eq, addable.additive first second, ?_, ?_⟩
  · refine ⟨b.plus a, addable.symm.add_eq, agrees, agrees.beq addable.selfEqual ?_⟩
    exact (Bins.kind_addAll a.bins b.bins).symm ▸ addable.integral_bins first
  · intro c reachable other
    refine ⟨a.plus (b.plus c), ?_, ?_⟩
    · rw [addable.add_eq, ← addable.plus_plus other first second reachable.sound]
      exact add_of_same other.axes other.selfEqual other.kind
    · have last : b.Addable c := addable.symm.trans other
      rw [last.add_eq]
      exact add_of_same addable.axes addable.selfEqual addable.kind

/-- One entry, of a weight beyond the largest word. -/
def heavyPair : Histogram :=
  (growingPair.fill .builtin [.int 0, .int 0] (some 18446744073709551616)).state

theorem reachable_heavyPair : heavyPair.Reachable :=
  .fill reachable_growingPair Registry.builtin_keepsShape (by decide +kernel)

theorem add_additive_heavyPair : ∃ total, heavyPair.add heavyPair = .ok total ∧
    Additive heavyPair heavyPair total ∧
    (∃ swapped, heavyPair.add heavyPair = .ok swapped ∧ total.Agrees swapped ∧
      (total == swapped) = true) ∧
    ∀ c : Histogram, c.Reachable → heavyPair.Addable c → ∃ all,
      heavyPair.add heavyPair >>= (·.add c) = .ok all ∧
        heavyPair.add c >>= (heavyPair.add ·) = .ok all :=
  reachable_heavyPair.add_additive reachable_heavyPair
    ⟨rfl, by decide +kernel, rfl, by decide +kernel, rfl⟩

end Histogram
end Binning
