import Binning.Proofs.Reduction
import Mathlib.Algebra.BigOperators.Group.Finset.Basic

/-! Positions by strides. One pass over the axes from the last one on takes a position
apart and adds up, stride by stride, the position that it is sent to. The strides follow
the order in which the axes are laid out, whatever their own order is. -/
namespace Binning

namespace Layout

theorem volume_append (extents : List Nat) (extent : Nat) :
    volume (extents ++ [extent]) = volume extents * extent := by
  simp [volume_eq_prod]

/-- The last slot is the remainder, and the quotient holds the others. -/
theorem tuple_append {extents : List Nat} {extent p : Nat}
    (below : p < volume (extents ++ [extent])) :
    tuple (extents ++ [extent]) p = tuple extents (p / extent) ++ [p % extent] := by
  induction extents generalizing p with
  | nil =>
    have small : p < extent := by simpa using below
    simp [tuple, Nat.mod_eq_of_lt small]
  | cons first extents ih =>
    have inner : 0 < volume (extents ++ [extent]) := Nat.pos_of_lt_mul_left below
    have quotient : p / volume (extents ++ [extent]) = p / extent / volume extents := by
      rw [volume_append, Nat.mul_comm, Nat.div_div_eq_div_mul]
    have remainder : p % volume (extents ++ [extent]) / extent = p / extent % volume extents := by
      rw [volume_append, Nat.mul_comm, Nat.mod_mul_right_div_self]
    have last : p % volume (extents ++ [extent]) % extent = p % extent := by
      rw [volume_append, Nat.mod_mul_left_mod]
    rw [List.cons_append, tuple, tuple, ih (Nat.mod_lt p inner), quotient, remainder, last]
    rfl

end Layout

namespace Reduction
variable {routes : List Route} {order : List Nat} {extents : List Nat}

/-- The axis of the place, if it is kept. -/
def kept (routes : List Route) (d : Nat) : Option Axis := routes[d]? >>= Route.axis?

/-- The stride of every axis that is kept, and the volume of them all, from the last
axis of the order on. -/
def strides (routes : List Route) : List Nat → (Nat → Nat) × Nat
  | [] => (fun _ => 0, 1)
  | d :: order =>
    let (stride, volume) := strides routes order
    match kept routes d with
    | some axis => (Function.update stride d volume, volume * axis.extent)
    | none => (stride, volume)

/-- The pass over the first `d` axes: what is left of the position, and the position
that it is sent to so far. An axis that drops its slot ends it. -/
def walk (extents : List Nat) (routes : List Route) (stride : Nat → Nat) :
    Nat → Nat → Nat → Option Nat
  | 0, _, sum => some sum
  | d + 1, rest, sum =>
    let s := rest % extents.getD d 1
    let rest := rest / extents.getD d 1
    match routes[d]? with
    | some (.fold admits) => if admits s then walk extents routes stride d rest sum else none
    | some (.keep target _) =>
      (target s).bind fun k => walk extents routes stride d rest (sum + k * stride d)
    | none => none

/-! ### Strides -/

section
variable {d : Nat} {axis : Axis}

theorem axes_cons_of_fold (folds : kept routes d = none) :
    Reduction.axes routes (d :: order) = Reduction.axes routes order :=
  List.filterMap_cons_none folds

theorem axes_cons_of_keep (stays : kept routes d = some axis) :
    Reduction.axes routes (d :: order) = axis :: Reduction.axes routes order :=
  List.filterMap_cons_some stays

theorem strides_cons_of_fold (folds : kept routes d = none) :
    strides routes (d :: order) = strides routes order := by
  simp only [strides, folds]

theorem strides_cons_of_keep (stays : kept routes d = some axis) :
    strides routes (d :: order) =
      (Function.update (strides routes order).1 d (strides routes order).2,
        (strides routes order).2 * axis.extent) := by
  simp only [strides, stays]

end

theorem volume_strides (routes : List Route) (order : List Nat) :
    (strides routes order).2 = Layout.volume ((Reduction.axes routes order).map Axis.extent) := by
  induction order with
  | nil => rfl
  | cons d order ih =>
    cases stays : kept routes d with
    | none => rw [strides_cons_of_fold stays, axes_cons_of_fold stays, ih]
    | some axis =>
      rw [strides_cons_of_keep stays, axes_cons_of_keep stays, ih, List.map_cons,
        Layout.volume_cons, Nat.mul_comm]

theorem stride_of_not_mem {d : Nat} (other : d ∉ order) : (strides routes order).1 d = 0 := by
  induction order with
  | nil => rfl
  | cons e order ih =>
    obtain ⟨apart, other⟩ := List.ne_and_not_mem_of_not_mem_cons other
    cases stays : kept routes e with
    | none => rw [strides_cons_of_fold stays, ih other]
    | some axis => simp [strides_cons_of_keep stays, Function.update_of_ne apart, ih other]

/-- The position of the slots that are kept is the sum of their strides. -/
theorem position_eq_sum (once : order.Nodup) {slot : Nat → Option Nat}
    (same : ∀ d ∈ order, (kept routes d).isSome = (slot d).isSome) :
    Layout.position ((Reduction.axes routes order).map Axis.extent) (order.filterMap slot) =
      ∑ d ∈ order.toFinset, (slot d).getD 0 * (strides routes order).1 d := by
  rw [List.sum_toFinset _ once]
  induction order with
  | nil => rfl
  | cons d order ih =>
    obtain ⟨other, once⟩ := List.nodup_cons.mp once
    obtain ⟨head, tail⟩ := List.forall_mem_cons.mp same
    have rest := ih once tail
    cases stays : kept routes d with
    | none =>
      have empty : slot d = none := by simpa [stays] using head
      rw [axes_cons_of_fold stays, strides_cons_of_fold stays, List.filterMap_cons_none empty, rest]
      simp [empty]
    | some axis =>
      obtain ⟨k, found⟩ : ∃ k, slot d = some k := by
        rw [stays, Option.isSome_some] at head
        exact Option.isSome_iff_exists.mp head.symm
      -- the axis in front has the volume of the others as its stride and leaves theirs
      have others : ∀ e ∈ order, (slot e).getD 0 * (strides routes (d :: order)).1 e =
          (slot e).getD 0 * (strides routes order).1 e := by
        intro e among
        have apart : e ≠ d := fun equal => other (equal ▸ among)
        simp [strides_cons_of_keep stays, Function.update_of_ne apart]
      rw [List.map_cons, List.sum_cons, List.map_congr_left others, ← rest, axes_cons_of_keep stays,
        strides_cons_of_keep stays, List.filterMap_cons_some found, found, volume_strides]
      simp [Layout.position]

/-! ### The pass -/

theorem sendAll_append {slots : List Nat} (same : slots.length = routes.length) (route : Route)
    (s : Nat) : sendAll (routes ++ [route]) (slots ++ [s]) =
      (route.send s).bind fun o => (sendAll routes slots).map (· ++ [o]) := by
  induction routes generalizing slots with
  | nil =>
    obtain rfl := List.length_eq_zero_iff.mp same
    cases sent : route.send s <;> simp [sendAll, sent]
  | cons first routes ih =>
    cases slots with
    | nil => contradiction
    | cons head slots =>
      have rest := ih (Nat.succ.inj same)
      cases one : first.send head <;> cases last : route.send s <;>
        cases all : sendAll routes slots <;> simp [sendAll, one, last, all, rest]

theorem sum_sent_append (sent : List (Option Nat)) (o : Option Nat) (stride : Nat → Nat) :
    ∑ d ∈ Finset.range (sent.length + 1), ((sent ++ [o])[d]? >>= id).getD 0 * stride d =
      (∑ d ∈ Finset.range sent.length, (sent[d]? >>= id).getD 0 * stride d) +
        o.getD 0 * stride sent.length := by
  have front : ∀ d ∈ Finset.range sent.length, ((sent ++ [o])[d]? >>= id).getD 0 * stride d =
      (sent[d]? >>= id).getD 0 * stride d := by
    intro d among
    rw [List.getElem?_append_left (Finset.mem_range.mp among)]
  rw [Finset.sum_range_succ, Finset.sum_congr rfl front, List.getElem?_concat_length]
  rfl

/-- The pass adds the strides of the slots that the axes send. -/
theorem walk_eq (same : extents.length = routes.length) (stride : Nat → Nat) {n : Nat}
    (within : n ≤ routes.length) {rest : Nat} (below : rest < Layout.volume (extents.take n))
    (sum : Nat) : walk extents routes stride n rest sum =
      (sendAll (routes.take n) (Layout.tuple (extents.take n) rest)).map fun sent =>
        sum + ∑ d ∈ Finset.range n, (sent[d]? >>= id).getD 0 * stride d := by
  induction n generalizing rest sum with
  | zero => rfl
  | succ n ih =>
    have inside : n < extents.length := same ▸ within
    have extent : extents.getD n 1 = extents[n] := by simp [inside]
    rw [List.take_succ_eq_append_getElem inside] at below ⊢
    rw [List.take_succ_eq_append_getElem within, Layout.tuple_append below]
    have front : rest / extents[n] < Layout.volume (extents.take n) := by
      rw [Layout.volume_append] at below
      exact Nat.div_lt_of_lt_mul (Nat.mul_comm _ extents[n] ▸ below)
    have slots := (Layout.inside_tuple front).length_eq
    -- a slot that the last axis sends goes into the sum, and the pass goes on in front
    have step (o : Option Nat) :
        walk extents routes stride n (rest / extents[n]) (sum + o.getD 0 * stride n) =
          ((sendAll (routes.take n) (Layout.tuple (extents.take n) (rest / extents[n]))).map
            (· ++ [o])).map fun sent =>
              sum + ∑ d ∈ Finset.range (n + 1), (sent[d]? >>= id).getD 0 * stride d := by
      rw [ih (Nat.le_of_succ_le within) front, Option.map_map]
      apply Option.map_congr
      intro sent all
      have length : sent.length = n := by
        simp [length_sendAll (by simp [slots, same]) all, Nat.le_of_succ_le within]
      subst length
      rw [Function.comp_apply, sum_sent_append]
      omega
    rw [sendAll_append (by simp [slots, same]), walk, extent, List.getElem?_eq_getElem within]
    cases routes[n] with
    | fold admits =>
      by_cases admitted : admits (rest % extents[n]) = true
      · simpa [Route.send, admitted] using step none
      · simp [Route.send, admitted]
    | keep target _ =>
      cases found : target (rest % extents[n]) with
      | none => simp [Route.send, found]
      | some k => simpa [Route.send, found] using step (some k)

/-- The pass over all axes finds where a position is sent. -/
theorem walk_eq_target
    (lands : List.Forall₂ (fun extent r => Route.LandsWithin extent r) extents routes)
    (once : order.Nodup) {p : Nat} (below : p < Layout.volume extents) :
    walk extents routes (strides routes order).1 routes.length p 0 =
      target extents ((Reduction.axes routes order).map Axis.extent) routes order p := by
  have same := lands.length_eq
  have whole : extents.take routes.length = extents := same ▸ List.take_length
  rw [walk_eq same _ (Nat.le_refl _) (whole.symm ▸ below), List.take_length, whole, target]
  apply Option.map_congr
  intro sent all
  have inside := Layout.inside_tuple below
  have length := length_sendAll (inside.length_eq.trans same) all
  rw [position_eq_sum once fun d _ => (parallel_of_sendAll lands inside all d).isSome_eq,
    Nat.zero_add]
  -- an axis outside the order has no stride, and one that does not exist sends no slot
  refine Finset.sum_congr_of_eq_on_inter ?_ ?_ fun _ _ _ => rfl
  · intro d _ other
    rw [stride_of_not_mem (mt List.mem_toFinset.mpr other), Nat.mul_zero]
  · intro d _ other
    rw [Finset.mem_range, Nat.not_lt, ← length] at other
    simp [List.getElem?_eq_none other]

/-- The gathered cells are those of the strided pass. -/
theorem gather_eq_walk (bins : Bins) (full : bins.length = Layout.volume extents)
    (lands : List.Forall₂ (fun extent r => Route.LandsWithin extent r) extents routes)
    (once : order.Nodup) : (Reduction.gather bins extents routes order).2 =
      bins.gather (strides routes order).2
        (walk extents routes (strides routes order).1 routes.length · 0) := by
  rw [Reduction.gather, volume_strides]
  refine List.foldl_ext _ _ _ fun out p among => ?_
  dsimp only
  rw [walk_eq_target lands once (full ▸ List.mem_range.mp among)]

end Reduction
end Binning
