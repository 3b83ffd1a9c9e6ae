import Binning.Proofs.Axis.Made
import Binning.Proofs.Law.Bounds
import Binning.Proofs.Routes

/-! Looking numbers up between edges. The edges of an axis that does not grow are
finite and each is below the next, so the edges that a number reaches stand in front
of all others, and its index among the edges of groups tells its index among all of
them up to the group. -/
namespace Binning
open Results

/-! ### Order -/

namespace Binary64
variable {x y z : Float}

theorem lt_of_not_le (left : isFinite x = true) (right : isFinite y = true) (beyond : ¬ y ≤ x) :
    x < y := by
  obtain ⟨p, left⟩ := Option.isSome_iff_exists.mp left
  obtain ⟨q, right⟩ := Option.isSome_iff_exists.mp right
  rw [le_iff right left] at beyond
  exact (lt_iff left right).mpr (Int.lt_of_not_ge beyond)

theorem lt_of_lt_of_lt (left : isFinite x = true) (middle : isFinite y = true)
    (right : isFinite z = true) (below : x < y) (above : y < z) : x < z := by
  obtain ⟨p, left⟩ := Option.isSome_iff_exists.mp left
  obtain ⟨q, middle⟩ := Option.isSome_iff_exists.mp middle
  obtain ⟨s, right⟩ := Option.isSome_iff_exists.mp right
  rw [lt_iff left middle] at below
  rw [lt_iff middle right] at above
  exact (lt_iff left right).mpr (Int.lt_trans below above)

/-- A number that reaches a finite one also reaches those below it, be it finite
or not. -/
theorem le_of_lt_of_le (left : isFinite x = true) (middle : isFinite y = true) (below : x < y)
    (reaches : y ≤ z) : x ≤ z := by
  obtain ⟨p, left⟩ := Option.isSome_iff_exists.mp left
  obtain ⟨q, middle⟩ := Option.isSome_iff_exists.mp middle
  rw [lt_iff left middle] at below
  cases found : parts? z with
  | some s =>
    rw [le_iff middle found] at reaches
    exact (le_iff left found).mpr (Int.le_trans (Int.le_of_lt below) reaches)
  | none =>
    rw [eq_infinity_of_le middle found reaches]
    exact le_infinity left

end Binary64

namespace Edges

/-- Finite edges, each below all that follow it. -/
structure Ordered (e : Edges) : Prop where
  sized : 0 < e.size
  finite : ∀ x ∈ e.list, Binary64.isFinite x = true
  ascends : e.list.Pairwise (· < ·)

theorem pairwise_of_ascending {edges : List Float}
    (finite : ∀ x ∈ edges, Binary64.isFinite x = true) (ascends : ascending edges = true) :
    edges.Pairwise (· < ·) := by
  induction edges with
  | nil => exact .nil
  | cons x rest ih =>
    obtain ⟨first, finite⟩ := List.forall_mem_cons.mp finite
    cases rest with
    | nil => exact List.pairwise_singleton _ x
    | cons y rest =>
      simp only [ascending, Bool.and_eq_true, Bool.not_eq_true', decide_eq_false_iff_not] at ascends
      have later := ih finite ascends.2
      obtain ⟨second, others⟩ := List.forall_mem_cons.mp finite
      have below := Binary64.lt_of_not_le first second ascends.1
      refine List.pairwise_cons.mpr ⟨List.forall_mem_cons.mpr ⟨below, fun z among => ?_⟩, later⟩
      exact Binary64.lt_of_lt_of_lt first second (others z among) below
        ((List.pairwise_cons.mp later).1 z among)

theorem ordered_of_new {edges : List Float} {e : Edges} (made : new edges = .ok e) :
    e.Ordered := by
  simp only [new, guard_eq_ok, pure_eq_ok] at made
  obtain ⟨long, finite, ascends, rfl⟩ := made
  have finite : ∀ x ∈ edges, Binary64.isFinite x = true := by simpa using finite
  refine ⟨?_, finite, pairwise_of_ascending finite (by simpa using ascends)⟩
  unfold size
  simp only
  omega

/-- If a test that is passed is passed by all that stand in front, those that pass
are the first ones. -/
theorem lt_length_takeWhile_iff {passes : Float → Bool} {xs : List Float}
    (closed : xs.Pairwise fun x y => passes y = true → passes x = true) {j : Nat}
    (below : j < xs.length) :
    j < (xs.takeWhile passes).length ↔ passes (xs.get ⟨j, below⟩) = true := by
  induction xs generalizing j with
  | nil => contradiction
  | cons x xs ih =>
    obtain ⟨head, tail⟩ := List.pairwise_cons.mp closed
    cases j with
    | zero => cases first : passes x <;> simp [first]
    | succ j =>
      have inside := Nat.lt_of_succ_lt_succ below
      cases first : passes x with
      | true =>
        rw [List.takeWhile_cons_of_pos first, List.length_cons, Nat.succ_lt_succ_iff]
        exact ih tail inside
      | false =>
        rw [List.takeWhile_cons_of_neg (by simp [first])]
        refine ⟨(nomatch ·), fun passed => ?_⟩
        have passed := head _ (List.get_mem xs ⟨j, inside⟩) passed
        rw [first] at passed
        contradiction

variable {e : Edges} {x : Float} {lo hi merge : Nat}

theorem edge_eq_get {j : Nat} (below : j < e.list.length) : e.edge j = e.list.get ⟨j, below⟩ :=
  List.getD_eq_getElem _ _ below

namespace Ordered
variable (ordered : e.Ordered)
include ordered

theorem length_eq : e.list.length = e.size + 1 := by
  have sized := ordered.sized
  unfold size at *
  omega

/-- The index counts the edges that a number reaches; NaN counts as beyond all. -/
theorem le_index_iff {j : Nat} (below : j ≤ e.size) :
    (j : Int) ≤ e.index x ↔ x.isNaN = true ∨ e.edge j ≤ x := by
  have length := ordered.length_eq
  unfold index
  split
  next nan => exact ⟨fun _ => .inl nan, fun _ => Int.ofNat_le.mpr below⟩
  next defined =>
    have closed : e.list.Pairwise fun y z => decide (z ≤ x) = true → decide (y ≤ x) = true := by
      refine ordered.ascends.imp_of_mem fun among other below => ?_
      simpa only [decide_eq_true_eq] using
        Binary64.le_of_lt_of_le (ordered.finite _ among) (ordered.finite _ other) below
    have reached := lt_length_takeWhile_iff closed (j := j) (by omega)
    rw [decide_eq_true_eq, ← edge_eq_get] at reached
    rw [← reached]
    simp only [defined, Bool.false_eq_true, false_or]
    omega

theorem finite_edge {j : Nat} (below : j ≤ e.size) : Binary64.isFinite (e.edge j) = true := by
  have length := ordered.length_eq
  rw [edge_eq_get (by omega)]
  exact ordered.finite _ (List.get_mem ..)

theorem edge_lt {j k : Nat} (before : j < k) (below : k ≤ e.size) : e.edge j < e.edge k := by
  have length := ordered.length_eq
  rw [edge_eq_get (by omega), edge_eq_get (by omega)]
  exact List.pairwise_iff_get.mp ordered.ascends _ _ before

end Ordered

/-! ### Groups -/

section Groups
variable (positive : 0 < merge) (some_bin : lo < hi)
include positive some_bin

theorem pairwise_stops : (stops lo hi merge).Pairwise (· < ·) := by
  have stop := fun k => getElem?_stops (k := k) positive (Nat.le_of_lt some_bin)
  have length : (stops lo hi merge).length = _ := length_stops positive
  rw [List.pairwise_iff_getElem]
  intro i j first second before
  have whole : lo + i * merge < hi := by
    have group : i < (hi - lo) ⌈/⌉ merge := by omega
    have := (lt_ceilDiv_iff positive).mp group
    omega
  have apart : i * merge < j * merge := Nat.mul_lt_mul_of_pos_right before positive
  rw [(List.getElem?_eq_some_iff.mp (stop i (by omega))).2,
    (List.getElem?_eq_some_iff.mp (stop j (by omega))).2]
  omega

theorem le_of_mem_stops {k : Nat} (among : k ∈ stops lo hi merge) : k ≤ hi := by
  obtain ⟨j, below, rfl⟩ := List.getElem_of_mem among
  rw [length_stops positive] at below
  have stop := getElem?_stops positive (Nat.le_of_lt some_bin) (Nat.le_of_lt_succ below)
  rw [(List.getElem?_eq_some_iff.mp stop).2]
  exact Nat.min_le_right ..

theorem edge_slice {k : Nat} (below : k ≤ (hi - lo) ⌈/⌉ merge) :
    (e.slice lo hi merge).edge k = e.edge (min (lo + k * merge) hi) := by
  have stop := getElem?_stops positive (Nat.le_of_lt some_bin) below
  rw [edge, slice, List.getD_eq_getElem?_getD, List.getElem?_map, stop]
  rfl

variable (ordered : e.Ordered) (inside : hi ≤ e.size)
include ordered inside

theorem Ordered.slice : (e.slice lo hi merge).Ordered := by
  refine ⟨?_, ?_, ?_⟩
  · rw [size_slice positive, lt_ceilDiv_iff positive]
    omega
  · intro x among
    obtain ⟨j, stop, rfl⟩ := List.mem_map.mp among
    exact ordered.finite_edge (Nat.le_trans (le_of_mem_stops positive some_bin stop) inside)
  · refine List.pairwise_map.mpr ((pairwise_stops positive some_bin).imp_of_mem ?_)
    intro j k _ stop before
    exact ordered.edge_lt before (Nat.le_trans (le_of_mem_stops positive some_bin stop) inside)

/-- A number reaches a group exactly if it reaches the first bin of the group. -/
theorem Ordered.le_index_slice_iff {k : Nat} (below : k ≤ (hi - lo) ⌈/⌉ merge) :
    (k : Int) ≤ (e.slice lo hi merge).index x ↔
      ((min (lo + k * merge) hi : Nat) : Int) ≤ e.index x := by
  have groups := ordered.slice positive some_bin inside
  rw [groups.le_index_iff (by rwa [size_slice positive]),
    ordered.le_index_iff (Nat.le_trans (Nat.min_le_right ..) inside),
    edge_slice positive some_bin below]

end Groups
end Edges

namespace Axis
variable {a : Axis} {e : Edges} {lo hi merge : Nat}

theorem size_of_edges (law : a.law = .edges e) : a.size = e.size := by rw [size, law]

theorem ordered_of_sliceUneven {r : Regular} (cut : sliceUneven r lo hi merge = .ok e) :
    e.Ordered := by
  unfold sliceUneven at cut
  split at cut
  · cases cut
  · exact Edges.ordered_of_new (mapError_eq_ok.mp cut)

/-- The edges of groups are in order if those of the axis are. -/
theorem ordered_of_sliceLaw (sound : ∀ d, a.law = .edges d → d.Ordered) (some_bin : lo < hi)
    (inside : hi ≤ a.size) (positive : 0 < merge) (cut : a.sliceLaw lo hi merge = .ok (.edges e)) :
    e.Ordered := by
  unfold sliceLaw at cut
  unfold size at inside
  cases law : a.law with
  | regular r =>
    simp only [law] at cut
    split at cut
    · split at cut <;> cases cut
    split at cut
    · cases cut
    · obtain ⟨uneven, cut, same⟩ := map_eq_ok.mp cut
      cases same
      exact ordered_of_sliceUneven cut
  | edges d =>
    simp only [law] at cut inside
    cases cut
    exact Edges.Ordered.slice positive some_bin (sound d law) inside
  | integer | category =>
    simp only [law] at cut
    split at cut <;> cases cut

theorem Made.ordered_edges (made : a.Made) (fixed : a.options.growth = false)
    (law : a.law = .edges e) : e.Ordered := by
  induction made generalizing e with
  | @built b _ _ _ done =>
    cases b with
    | edges list =>
      simp only [Blueprint.build, bind_eq_ok, pure_eq_ok] at done
      obtain ⟨built, new, _, _, rfl⟩ := done
      cases law
      exact Edges.ordered_of_new new
    | regular | integer | category =>
      simp only [Blueprint.build, bind_eq_ok, pure_eq_ok] at done
      obtain ⟨_, _, _, _, rfl⟩ := done
      cases law
  | cut _ done ih =>
    obtain ⟨some_bin, inside, positive, _, options, _⟩ := size_of_slice done
    simp only [slice, guard_eq_ok, bind_eq_ok, pure_eq_ok] at done
    obtain ⟨_, _, done, rfl⟩ := done
    exact ordered_of_sliceLaw (fun _ => ih fixed) some_bin inside positive (law ▸ done)
  | grown made located grows _ =>
    -- an axis that has grown may grow again
    rw [(size_of_locate made.size_pos located grows).2.1, growth_of_locate located grows] at fixed
    contradiction
  | labelled _ _ ih => exact ih fixed law

/-- The index among the edges of groups is the group of the index among all edges:
in the groups in any case, and outside of them if all bins are in groups. -/
theorem grouped_index_iff (law : a.law = .edges e) (ordered : e.Ordered) (positive : 0 < merge)
    (some_bin : lo < hi) (inside : hi ≤ a.size) (x : Float) {k : Int}
    (told : 0 ≤ k ∧ k < ((hi - lo) ⌈/⌉ merge : Nat) ∨ lo = 0 ∧ hi = a.size) :
    a.Grouped lo hi merge (lo == 0) (hi == a.size) (e.index x) k ↔
      (e.slice lo hi merge).index x = k := by
  have size := size_of_edges law
  rw [size] at inside told ⊢
  have groups := ordered.slice positive some_bin inside
  have bounds := Edges.index_bounds ordered.sized x
  have others := Edges.index_bounds groups.sized x
  rw [Edges.size_slice positive] at others
  have reached := fun k => ordered.le_index_slice_iff (x := x) (k := k) positive some_bin inside
  unfold Grouped
  simp only [beq_iff_eq]
  by_cases group : 0 ≤ k ∧ k < ((hi - lo) ⌈/⌉ merge : Nat)
  · obtain ⟨low, high⟩ := group
    obtain ⟨k, rfl⟩ := Int.eq_ofNat_of_zero_le low
    have start := (lt_ceilDiv_iff positive).mp (Int.ofNat_lt.mp high)
    have first := reached k (by omega)
    have next := reached (k + 1) (by omega)
    rw [Nat.succ_mul] at next
    rw [Int.add_mul, Int.one_mul, ← Int.natCast_mul]
    omega
  · obtain ⟨rfl, rfl⟩ := told.resolve_left group
    have first := reached 0 (by omega)
    have last := reached ((e.size - 0) ⌈/⌉ merge) (Nat.le_refl _)
    have above : ¬ (e.size - 0) ⌈/⌉ merge * merge < e.size - 0 :=
      fun below => Nat.lt_irrefl _ ((lt_ceilDiv_iff positive).mpr below)
    have beyond : 0 ≤ k → (e.size : Int) ≤ k * merge := by
      intro low
      obtain ⟨j, rfl⟩ := Int.eq_ofNat_of_zero_le low
      have far : (e.size - 0) ⌈/⌉ merge ≤ j := by omega
      have farther := Nat.mul_le_mul_right merge far
      rw [← Int.natCast_mul]
      omega
    omega

end Axis
end Binning
