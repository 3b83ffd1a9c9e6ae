import Binning.ClassedAxis
import Binning.Proofs.Axis.Made

/-! Equality of axes. Equal axes may be two: it compares numbers, so that the edges
of one may end at zero and those of the other at minus zero. They have the same slots. -/
namespace Binning

theorem Axis.size_of_beq {a b : Axis} (equal : (a.law == b.law) = true) : b.size = a.size := by
  obtain ⟨law, _, _⟩ := a
  obtain ⟨other, _, _⟩ := b
  cases law <;> cases other <;> first | contradiction | skip
  case regular.regular r s =>
    have parts : (r.grid.size == s.grid.size &&
        (r.grid.first == s.grid.first && r.grid.span == s.grid.span) &&
        r.transform == s.transform) = true := equal
    simp only [Bool.and_eq_true] at parts
    exact (eq_of_beq parts.1.1).symm
  case edges.edges d e =>
    have lists : (d.list == e.list) = true := equal
    exact congrArg (· - 1) (List.length_eq_of_beq lists).symm
  case integer.integer r s =>
    have ranges : (r == s) = true := equal
    rw [size, size, eq_of_beq ranges]
  case category.category c d =>
    have labels : (c == d) = true := equal
    rw [size, size, eq_of_beq labels]

theorem Axis.sameSlots_of_beq {a b : Axis} (equal : (a == b) = true) : SameSlots a b := by
  have parts : (a.law == b.law && (a.options == b.options && a.label == b.label)) = true := equal
  simp only [Bool.and_eq_true] at parts
  obtain ⟨laws, options, _⟩ := parts
  exact ⟨size_of_beq laws, (eq_of_beq options).symm⟩

/-- Axes in their classes are equal if they are equal without them. -/
theorem ClassedAxis.beq_map_axis (axes others : List ClassedAxis) :
    (axes == others) = (axes.map axis == others.map axis) := by
  induction axes generalizing others with
  | nil => cases others <;> rfl
  | cons a axes ih =>
    cases others with
    | nil => rfl
    | cons b others =>
      rw [List.cons_beq_cons, List.map_cons, List.map_cons, List.cons_beq_cons, ih]
      rfl

theorem ClassedAxis.forall₂_of_beq {axes others : List ClassedAxis}
    (equal : (axes == others) = true) :
    List.Forall₂ (fun a b => (a.axis == b.axis) = true) axes others := by
  induction axes generalizing others with
  | nil =>
    cases others with
    | nil => exact .nil
    | cons => contradiction
  | cons a axes ih =>
    cases others with
    | nil => contradiction
    | cons b others =>
      have parts : (a.axis == b.axis && axes == others) = true := equal
      rw [Bool.and_eq_true] at parts
      exact .cons parts.1 (ih parts.2)

theorem ClassedAxis.sameSlots_of_beq {axes others : List ClassedAxis}
    (equal : (axes == others) = true) :
    List.Forall₂ Axis.SameSlots (axes.map axis) (others.map axis) := by
  rw [List.forall₂_map_left_iff, List.forall₂_map_right_iff]
  exact (forall₂_of_beq equal).imp fun _ _ => Axis.sameSlots_of_beq

end Binning
