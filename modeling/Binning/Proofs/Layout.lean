import Binning.Layout
import Mathlib.Algebra.BigOperators.Group.List.Lemmas
import Mathlib.Data.List.Perm.Subperm
import Mathlib.Data.Set.Function
import Mathlib.Order.Interval.Set.Defs
import Mathlib.Tactic.Ring

/-! Row-major layouts, continued: positions and the tuples inside the extents
are in bijection, and a layout over some of the axes is no larger than one over
all of them. -/
namespace Binning.Layout

theorem inside_iff_forall₂ {extents slots : List Nat} :
    Inside extents slots ↔ List.Forall₂ (fun extent slot => slot < extent) extents slots := by
  constructor
  · intro inside
    induction inside with
    | nil => exact .nil
    | cons below _ ih => exact .cons below ih
  · intro below
    induction below with
    | nil => exact .nil
    | cons below _ ih => exact .cons below ih

theorem mem_tuples {extents slots : List Nat} : slots ∈ tuples extents ↔ Inside extents slots := by
  induction extents generalizing slots with
  | nil =>
    rw [tuples, List.mem_singleton]
    constructor
    · rintro rfl
      exact .nil
    · rintro ⟨⟩
      rfl
  | cons extent extents ih =>
    simp only [tuples, List.mem_flatMap, List.mem_range, List.mem_map, ih]
    constructor
    · rintro ⟨slot, below, slots, inside, rfl⟩
      exact .cons below inside
    · rintro ⟨⟩
      exact ⟨_, ‹_›, _, ‹_›, rfl⟩

theorem length_tuples (extents : List Nat) : (tuples extents).length = volume extents := by
  induction extents with
  | nil => rfl
  | cons extent extents ih => simp [tuples, List.length_flatMap, ih]

theorem getElem?_flatMap_range {α : Type} {f : Nat → List α} {width : Nat}
    (long : ∀ k, (f k).length = width) {n k j : Nat} (below : k < n) (inside : j < width) :
    ((List.range n).flatMap f)[k * width + j]? = (f k)[j]? := by
  induction n with
  | zero => contradiction
  | succ n ih =>
    have lengths : ((List.range n).flatMap f).length = n * width := by
      simp [List.length_flatMap, long]
    rw [List.range_succ, List.flatMap_append, List.flatMap_singleton]
    rcases Nat.lt_succ_iff_lt_or_eq.mp below with before | rfl
    · have small : k * width + j < n * width :=
        Nat.lt_of_lt_of_le (by rw [Nat.succ_mul]; omega) (Nat.mul_le_mul_right width before)
      rw [List.getElem?_append_left (lengths ▸ small), ih before]
    · rw [List.getElem?_append_right (by omega), lengths, Nat.add_sub_cancel_left]

/-- The tuples stand in the order of their positions. -/
theorem getElem?_tuples {extents slots : List Nat} (inside : Inside extents slots) :
    (tuples extents)[position extents slots]? = some slots := by
  induction inside with
  | nil => rfl
  | @cons extent slot extents slots below inside ih =>
    have width (k : Nat) : ((tuples extents).map (k :: ·)).length = volume extents := by
      rw [List.length_map, length_tuples]
    rw [tuples, position, getElem?_flatMap_range width below inside.position_lt, List.getElem?_map, ih]
    rfl

theorem position_bijOn (extents : List Nat) :
    Set.BijOn (position extents) {slots | Inside extents slots} (Set.Iio (volume extents)) := by
  have inverse : Set.InvOn (tuple extents) (position extents) {slots | Inside extents slots}
      (Set.Iio (volume extents)) :=
    ⟨fun _ inside => Inside.tuple_position inside, fun _ below => position_tuple below⟩
  refine inverse.bijOn ?_ ?_
  · intro slots inside
    exact Inside.position_lt inside
  · intro p below
    exact inside_tuple below

/-! ### Horner's rule -/

/-- A position computed from the first axis on: each extent scales what came before it. -/
def flat (extents slots : List Nat) : Nat :=
  (slots.zip extents).foldl (fun sum (slot, extent) => sum * extent + slot) 0

/-- What came before moves by whole volumes of the rest. -/
theorem foldl_zip_eq {extents slots : List Nat} (same : slots.length = extents.length)
    (sum : Nat) : (slots.zip extents).foldl (fun sum (slot, extent) => sum * extent + slot) sum =
      sum * volume extents + position extents slots := by
  induction extents generalizing slots sum with
  | nil =>
    obtain rfl := List.length_eq_zero_iff.mp same
    exact (Nat.mul_one sum).symm
  | cons extent extents ih =>
    cases slots with
    | nil => contradiction
    | cons slot slots =>
      rw [List.zip_cons_cons, List.foldl_cons, ih (Nat.succ.inj same), volume_cons, position]
      ring

theorem flat_eq_position {extents slots : List Nat} (same : slots.length = extents.length) :
    flat extents slots = position extents slots := by
  rw [flat, foldl_zip_eq same, Nat.zero_mul, Nat.zero_add]

/-! ### Volumes -/

theorem volume_eq_prod (extents : List Nat) : volume extents = extents.prod :=
  List.prod_eq_foldr.symm

theorem volume_le_volume {extents larger : List Nat} (le : List.Forall₂ (· ≤ ·) extents larger) :
    volume extents ≤ volume larger := by
  induction le with
  | nil => exact Nat.le_refl _
  | cons head _ ih => exact Nat.mul_le_mul head ih

theorem le_volume_of_mem {extents : List Nat} {extent : Nat} (positive : 0 ∉ extents)
    (among : extent ∈ extents) : extent ≤ volume extents := by
  apply Nat.le_of_dvd (volume_pos positive)
  rw [volume_eq_prod]
  exact List.dvd_prod among

theorem volume_le_of_subperm {extents others : List Nat} (positive : 0 ∉ others)
    (among : extents.Subperm others) : volume extents ≤ volume others := by
  obtain ⟨listed, same, sublist⟩ := among
  apply Nat.le_of_dvd (volume_pos positive)
  rw [volume_eq_prod, volume_eq_prod, ← same.prod_eq]
  exact sublist.prod_dvd_prod

/-- Axes that are kept, each of them once and none of them larger than before,
span no more than all axes did. -/
theorem volume_filterMap_le {extents order : List Nat} {kept : Nat → Option Nat}
    (positive : 0 ∉ extents) (once : order.Nodup) (exist : ∀ d ∈ order, d < extents.length)
    (le : ∀ d ∈ order, ∀ extent, kept d = some extent → extent ≤ extents.getD d 1) :
    volume (order.filterMap kept) ≤ volume extents := by
  have listed : ∀ d ∈ order, 1 ≤ extents.getD d 1 := by
    intro d among
    rw [List.getD_eq_getElem?_getD, List.getElem?_eq_getElem (exist d among), Option.getD_some]
    exact Nat.pos_of_ne_zero fun zero => positive (zero ▸ List.getElem_mem _)
  have each : volume (order.filterMap kept) ≤ volume (order.map (extents.getD · 1)) := by
    clear once exist
    induction order with
    | nil => exact Nat.le_refl _
    | cons d order ih =>
      obtain ⟨head, tail⟩ := List.forall_mem_cons.mp le
      obtain ⟨first, rest⟩ := List.forall_mem_cons.mp listed
      cases stays : kept d with
      | none =>
        rw [List.filterMap_cons_none stays]
        exact Nat.le_trans (ih tail rest) (Nat.le_mul_of_pos_left _ first)
      | some extent =>
        rw [List.filterMap_cons_some stays]
        exact Nat.mul_le_mul (head extent stays) (ih tail rest)
  have all : (List.range extents.length).map (extents.getD · 1) = extents := by
    apply List.ext_getElem
    · simp
    · intro d _ below
      simp [below]
  have among : (order.map (extents.getD · 1)).Subperm extents := by
    obtain ⟨listed, same, sublist⟩ :=
      once.subperm fun d among => List.mem_range.mpr (exist d among)
    refine ⟨listed.map (extents.getD · 1), same.map _, ?_⟩
    have mapped := sublist.map (extents.getD · 1)
    rwa [all] at mapped
  exact Nat.le_trans each (volume_le_of_subperm positive among)

end Binning.Layout
