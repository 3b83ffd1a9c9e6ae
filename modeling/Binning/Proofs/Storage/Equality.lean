import Binning.Proofs.Storage.Counts

/-! Equality of contents. Numbers compare as numbers do, so the two zeros are
equal and NaN is not equal to itself; nothing else stands against an equality
with itself. -/
namespace Binning

theorem list_beq_iff_forall₂ {α : Type} [BEq α] {xs ys : List α} :
    (xs == ys) = true ↔ List.Forall₂ (fun x y => (x == y) = true) xs ys := by
  induction xs generalizing ys with
  | nil => cases ys <;> simp
  | cons x xs ih =>
    cases ys with
    | nil => simp
    | cons y ys => rw [List.cons_beq_cons, Bool.and_eq_true, ih, List.forall₂_cons]

theorem beq_self_of_mem {α : Type} [BEq α] {xs : List α} (same : (xs == xs) = true) :
    ∀ x ∈ xs, (x == x) = true :=
  List.forall₂_same.mp (list_beq_iff_forall₂.mp same)

/-- What is alike is equal, if it is equal to itself. -/
theorem Cell.Alike.beq {x y : Cell} (alike : x.Alike y) (same : (y == y) = true) :
    (x == y) = true := by
  have number {v w : Float} (alike : Binary64.Alike v w) (same : (w == w) = true) :
      (v == w) = true := by
    rcases alike with rfl | equal
    · exact same
    · exact equal
  cases x <;> cases y <;> first | contradiction | skip
  case real.real => exact number alike same
  case weighted.weighted =>
    obtain ⟨value, variance⟩ := Bool.and_eq_true_iff.mp same
    exact Bool.and_eq_true_iff.mpr ⟨number alike.1 value, number alike.2 variance⟩
  all_goals
    cases alike
    exact same

namespace Bins
variable {b c : Bins}

theorem beq_of_cells (kind : c.kind = b.kind) (length : c.length = b.length)
    (cells : ∀ i < b.length, (c.get i == b.get i) = true) : (c == b) = true := by
  have lists : (c.cells == b.cells) = true := by
    unfold Bins.cells
    rw [length]
    apply list_beq_iff_forall₂.mpr
    rw [List.forall₂_map_left_iff, List.forall₂_map_right_iff, List.forall₂_same]
    exact fun i among => cells i (List.mem_range.mp among)
  change (c.kind == b.kind && c.cells == b.cells) = true
  rw [kind, lists, beq_self_eq_true, Bool.and_self]

theorem get_beq_self (same : (b == b) = true) {i : Nat} (below : i < b.length) :
    (b.get i == b.get i) = true :=
  beq_self_of_mem (Bool.and_eq_true_iff.mp same).2 _
    (List.mem_map_of_mem (List.mem_range.mpr below))

theorem beq_self (bins : Bins) (integral : bins.kind.isIntegral = true) :
    (bins == bins) = true := by
  refine beq_of_cells rfl rfl fun i _ => ?_
  rw [get_eq_count integral]
  exact beq_self_eq_true (bins.tally i)

end Bins
end Binning
