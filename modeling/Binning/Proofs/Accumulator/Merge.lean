import Binning.Proofs.Binary64.Special
import Binning.Proofs.Exact
import Binning.Proofs.Storage.Gather

/-! What a merge of means keeps. It adds the totals unless they cancel, when the
entries of the other accumulator are dropped, and the mean goes through a
product and a quotient by the total even where one side is empty. -/
namespace Binning
open Binary64

/-! ### Moments of one operand -/

section Moments
variable {c v d : Float}

/-- The mean that a merge into the empty accumulator comes to. -/
theorem quotient_beq (c v : Float) : ((0 * 0 + c * v) / c == v) = (c * v / c == v) := by
  have nothing : ((0 : Float) * 0 == 0) = true := zero_mul_beq zero_beq_zero rfl
  rcases zero_add_or_zero nothing (c * v) with same | ⟨right, sum⟩
  · rw [same]
  · exact zero_div_beq sum right c v

/-- The deviation around that mean. -/
theorem deviation_beq_iff {q : Float} (mean : (q == v) = true) (finite : isFinite c = true) :
    (0 + (d + 0 * ((0 - q) * (0 - q)) + c * ((v - q) * (v - q))) == d) = true ↔
      isFinite (v * v) = true ∧ d.isNaN = false := by
  have squares : isFinite ((0 - q) * (0 - q)) = isFinite (v * v) := by
    rw [isFinite_square_zero_sub zero_beq_zero]
    rcases eq_or_zero_of_beq mean with rfl | ⟨left, right⟩
    · rfl
    · have small {x : Float} (zero : (x == 0) = true) : isFinite (x * x) = true :=
        isFinite_of_beq_zero (zero_mul_beq zero (isFinite_of_beq_zero zero))
      rw [small left, small right]
  cases bounded : isFinite (v * v) with
  | false =>
    -- an infinite square makes the deviation NaN
    have lost := isNaN_zero_mul zero_beq_zero (squares.trans bounded)
    have nan := isNaN_add_right 0 (isNaN_add_left (isNaN_add_right d lost)
      (c * ((v - q) * (v - q))))
    simp [beq_of_isNaN nan]
  | true =>
    have difference : (v - q == 0) = true :=
      sub_beq_zero (beq_symm mean) (isFinite_of_square bounded)
    have first := zero_mul_beq zero_beq_zero (squares.trans bounded)
    have square := zero_mul_beq difference (isFinite_of_beq_zero difference)
    have second := mul_zero_beq finite square
    rw [zero_add_beq zero_beq_zero, add_zero_beq second, add_zero_beq first, beq_self_iff]
    simp

end Moments

/-! ### Means -/

namespace Mean

theorem beq_iff (m n : Mean Float) : (m == n) = true ↔
    (m.count == n.count) = true ∧ (m.value == n.value) = true ∧
      (m.deviation == n.deviation) = true := by
  cases m
  cases n
  change (_ && (_ && _)) = true ↔ _
  simp only [Bool.and_eq_true]

theorem merge_of_cancel {m n : Mean Float} (cancel : (m.count + n.count == 0) = true) :
    m.merge n = m := if_pos cancel

theorem count_merge_of_not_cancel {m n : Mean Float} (keep : ¬ (m.count + n.count == 0) = true) :
    (m.merge n).count = m.count + n.count :=
  congrArg count (if_neg keep)

theorem empty_merge_of_none {m : Mean Float} (nothing : (0 + m.count == 0) = true) :
    (empty : Mean Float).merge m = ⟨0, 0, 0⟩ :=
  if_pos nothing

theorem empty_merge_of_entries {m : Mean Float} (entries : ¬ (0 + m.count == 0) = true) :
    (empty : Mean Float).merge m =
      let q := (0 * 0 + m.count * m.value) / (0 + m.count)
      ⟨0 + m.count, q, 0 + (m.deviation + 0 * ((0 - q) * (0 - q)) +
        m.count * ((m.value - q) * (m.value - q)))⟩ :=
  if_neg entries

/-- The total is kept unless it cancels. -/
theorem merge_count_beq_iff (m n : Mean Float) :
    ((m.merge n).count == m.count + n.count) = true ↔
      (m.count + n.count).isNaN = false ∧
        ((m.count + n.count == 0) = true → (m.count == 0) = true) := by
  by_cases cancel : (m.count + n.count == 0) = true
  · rw [merge_of_cancel cancel]
    have defined := not_isNaN_of_beq cancel
    constructor
    · intro kept
      rcases eq_or_zero_of_beq kept with same | ⟨zero, _⟩
      · exact ⟨defined, fun _ => same.symm ▸ cancel⟩
      · exact ⟨defined, fun _ => zero⟩
    · rintro ⟨_, zero⟩
      rw [zero_beq_congr (zero cancel) cancel]
      exact beq_self_iff.mpr defined
  · rw [count_merge_of_not_cancel cancel, beq_self_iff]
    exact (and_iff_left fun cancels => absurd cancels cancel).symm

/-- A merge into the empty accumulator copies this one. -/
def Copied (m : Mean Float) : Prop :=
  if m.count == 0 then (m.value == 0) = true ∧ (m.deviation == 0) = true
  else (m.count * m.value / m.count == m.value) = true ∧
    isFinite (m.value * m.value) = true ∧ m.deviation.isNaN = false

theorem empty_merge_beq_iff (m : Mean Float) :
    ((empty : Mean Float).merge m == m) = true ↔ m.Copied := by
  have total : ((0 : Float) + m.count == 0) = (m.count == 0) := zero_add_beq zero_beq_zero 0
  have comm {x y : Float} : (x == y) = true ↔ (y == x) = true := ⟨beq_symm, beq_symm⟩
  unfold Copied
  split
  · rename_i nothing
    rw [empty_merge_of_none (total.trans nothing), beq_iff, @comm 0 m.count,
      and_iff_right nothing, @comm 0 m.value, @comm 0 m.deviation]
  · rename_i entries
    have count : 0 + m.count = m.count :=
      (zero_add_or_zero zero_beq_zero m.count).resolve_right fun zero => entries zero.1
    rw [empty_merge_of_entries (total ▸ entries), count, beq_iff]
    simp only [quotient_beq]
    constructor
    · rintro ⟨_, mean, deviation⟩
      have finite := isFinite_of_mul_div mean
      exact ⟨mean, (deviation_beq_iff ((quotient_beq ..).trans mean) finite).mp deviation⟩
    · rintro ⟨mean, rest⟩
      have finite := isFinite_of_mul_div mean
      have defined := beq_self_iff.mpr (not_isNaN_of_isFinite finite)
      exact ⟨defined, mean, (deviation_beq_iff ((quotient_beq ..).trans mean) finite).mpr rest⟩

example : ((Mean.empty : Mean Float).merge ⟨3, 0.1, 0⟩ == ⟨3, 0.1, 0⟩) = false := by decide +kernel

/-- Read exactly, only an accumulator of zero count is lost. -/
theorem exact_empty_merge (m : Mean ℚ) : empty.merge m = m ↔ m.count ≠ 0 ∨ m = empty := by
  obtain ⟨c, v, d⟩ := m
  by_cases nothing : c = 0
  · have unmerged : (empty : Mean ℚ).merge ⟨c, v, d⟩ = empty := if_pos (by simp [empty, nothing])
    rw [unmerged]
    simp [nothing, eq_comm]
  · have merged : (empty : Mean ℚ).merge ⟨c, v, d⟩ =
        let q := (0 * 0 + c * v) / (0 + c)
        ⟨0 + c, q, 0 + (d + 0 * Scalar.square (0 - q) + c * Scalar.square (v - q))⟩ :=
      if_neg (by simp [empty, nothing])
    rw [merged]
    simp [nothing, Scalar.square]

end Mean

/-! ### Weighted means -/

namespace WeightedMean

section Moments
variable {α : Type} [Scalar α]

/-- The moments without the sum of the squared weights. -/
def toMean (m : WeightedMean α) : Mean α := ⟨m.weight, m.value, m.deviation⟩

theorem toMean_merge (m n : WeightedMean α) : (m.merge n).toMean = m.toMean.merge n.toMean := by
  by_cases cancel : (m.weight + n.weight == 0) = true
  · have left : m.merge n = m := if_pos cancel
    have right : m.toMean.merge n.toMean = m.toMean := if_pos cancel
    rw [left, right]
  · exact (congrArg toMean (if_neg cancel)).trans (if_neg cancel).symm

end Moments

theorem beq_iff (m n : WeightedMean Float) : (m == n) = true ↔
    (m.toMean == n.toMean) = true ∧ (m.weightSquared == n.weightSquared) = true := by
  rw [Mean.beq_iff]
  cases m
  cases n
  change (_ && (_ && (_ && _))) = true ↔ _
  simp only [Bool.and_eq_true]
  tauto

theorem weightSquared_merge_of_cancel {m n : WeightedMean Float}
    (cancel : (m.weight + n.weight == 0) = true) : (m.merge n).weightSquared = m.weightSquared :=
  congrArg weightSquared (if_pos cancel)

theorem weightSquared_merge_of_not_cancel {m n : WeightedMean Float}
    (keep : ¬ (m.weight + n.weight == 0) = true) :
    (m.merge n).weightSquared = m.weightSquared + n.weightSquared :=
  congrArg weightSquared (if_neg keep)

theorem weightSquared_empty_merge_of_none {m : WeightedMean Float}
    (nothing : (0 + m.weight == 0) = true) :
    ((empty : WeightedMean Float).merge m).weightSquared = 0 :=
  congrArg weightSquared (if_pos nothing)

theorem weightSquared_empty_merge_of_entries {m : WeightedMean Float}
    (entries : ¬ (0 + m.weight == 0) = true) :
    ((empty : WeightedMean Float).merge m).weightSquared = 0 + m.weightSquared :=
  congrArg weightSquared (if_neg entries)

/-- The sum of weights is kept as a count is. -/
theorem merge_weight_beq_iff (m n : WeightedMean Float) :
    ((m.merge n).weight == m.weight + n.weight) = true ↔
      (m.weight + n.weight).isNaN = false ∧
        ((m.weight + n.weight == 0) = true → (m.weight == 0) = true) := by
  have same : (m.merge n).weight = (m.toMean.merge n.toMean).count :=
    congrArg Mean.count (toMean_merge m n)
  rw [same]
  exact Mean.merge_count_beq_iff m.toMean n.toMean

theorem merge_weightSquared_beq_iff (m n : WeightedMean Float) :
    ((m.merge n).weightSquared == m.weightSquared + n.weightSquared) = true ↔
      (m.weightSquared + n.weightSquared).isNaN = false ∧
        ((m.weight + n.weight == 0) = true →
          (m.weightSquared == m.weightSquared + n.weightSquared) = true) := by
  by_cases cancel : (m.weight + n.weight == 0) = true
  · rw [weightSquared_merge_of_cancel cancel]
    exact ⟨fun kept => ⟨not_isNaN_of_beq (beq_symm kept), fun _ => kept⟩, fun kept => kept.2 cancel⟩
  · rw [weightSquared_merge_of_not_cancel cancel, beq_self_iff]
    exact (and_iff_left fun cancels => absurd cancels cancel).symm

/-- A merge into the empty accumulator copies this one. -/
def Copied (m : WeightedMean Float) : Prop :=
  m.toMean.Copied ∧
    if m.weight == 0 then (m.weightSquared == 0) = true else m.weightSquared.isNaN = false

theorem empty_merge_beq_iff (m : WeightedMean Float) :
    ((empty : WeightedMean Float).merge m == m) = true ↔ m.Copied := by
  have total : ((0 : Float) + m.weight == 0) = (m.weight == 0) := zero_add_beq zero_beq_zero 0
  rw [beq_iff, toMean_merge]
  refine and_congr (Mean.empty_merge_beq_iff m.toMean) ?_
  split
  · rename_i nothing
    rw [weightSquared_empty_merge_of_none (total.trans nothing)]
    exact ⟨beq_symm, beq_symm⟩
  · rename_i entries
    rw [weightSquared_empty_merge_of_entries (total ▸ entries), zero_add_beq zero_beq_zero,
      beq_self_iff]

/-- Read exactly, only an accumulator of zero weight is lost. -/
theorem exact_empty_merge (m : WeightedMean ℚ) :
    empty.merge m = m ↔ m.weight ≠ 0 ∨ m = empty := by
  obtain ⟨w, s, v, d⟩ := m
  by_cases nothing : w = 0
  · have unmerged : (empty : WeightedMean ℚ).merge ⟨w, s, v, d⟩ = empty :=
      if_pos (by simp [empty, nothing])
    rw [unmerged]
    simp [nothing, eq_comm]
  · have merged : (empty : WeightedMean ℚ).merge ⟨w, s, v, d⟩ =
        let q := (0 * 0 + w * v) / (0 + w)
        ⟨0 + w, 0 + s, q, 0 + (d + 0 * Scalar.square (0 - q) + w * Scalar.square (v - q))⟩ :=
      if_neg (by simp [empty, nothing])
    rw [merged]
    simp [nothing, Scalar.square]

end WeightedMean

/-! ### Cells that are moved alone -/

/-- A move of the cell to a slot of its own leaves it as it is. -/
def Cell.Copied : Cell → Prop
  | mean m => m.Copied
  | weightedMean m => m.Copied
  | _ => True

namespace Bins
variable {b : Bins} {target : Nat → Option Nat} {length i j : Nat}

theorem get_gather_of_alone (apart : b.kind ≠ .unlimited) (inside : i < length)
    (alone : sources target b.length i = [j]) :
    (b.gather length target).get i = b.kind.merge b.kind.zero (b.get j) := by
  rw [get_gather_of_apart apart inside, merged_eq_merge apart, alone]
  rfl

/-- A mean that is moved alone is told from what it was unless it is copied. -/
theorem gather_beq_iff (sampled : b.kind.takesSample = true) (inside : i < length)
    (alone : sources target b.length i = [j]) :
    ((b.gather length target).get i == b.get j) = true ↔ (b.get j).Copied := by
  have apart : b.kind ≠ .unlimited := by
    intro free
    rw [free] at sampled
    contradiction
  rw [get_gather_of_alone apart inside alone]
  cases b with
  | int | double | atomicInt | unlimited | weight => contradiction
  | mean => exact Mean.empty_merge_beq_iff _
  | weightedMean => exact WeightedMean.empty_merge_beq_iff _

end Bins

/-! ### What merges keep -/

/-- What fills of finite weights leave. -/
inductive Mean.Filled : Mean Float → Prop
  | empty : Filled .empty
  | fill {m : Mean Float} {weight : Float} (x : Float) :
    Filled m → isFinite weight = true → Filled (m.fill weight x)

/-- What merges keep of two means, two weighted means, a cell that a gather moves, and a mean
and a weighted mean in exact numbers. -/
structure MergeKeeps (m n : Mean Float) (u v : WeightedMean Float) (b : Bins)
    (target : Nat → Option Nat) (x : Mean ℚ) (y : WeightedMean ℚ) : Prop where
  /-- The totals of the operands are added unless they cancel. -/
  count : ((m.merge n).count == m.count + n.count) = true ↔
    (m.count + n.count).isNaN = false ∧
      ((m.count + n.count == 0) = true → (m.count == 0) = true)
  weight : ((u.merge v).weight == u.weight + v.weight) = true ↔
    (u.weight + v.weight).isNaN = false ∧
      ((u.weight + v.weight == 0) = true → (u.weight == 0) = true)
  /-- The squares are added unless the weights cancel. -/
  weightSquared : ((u.merge v).weightSquared == u.weightSquared + v.weightSquared) = true ↔
    (u.weightSquared + v.weightSquared).isNaN = false ∧
      ((u.weight + v.weight == 0) = true →
        (u.weightSquared == u.weightSquared + v.weightSquared) = true)
  /-- An accumulator that is merged into the empty one is copied where product and quotient
  undo each other. -/
  copied : ((Mean.empty : Mean Float).merge m == m) = true ↔ m.Copied
  weighted_copied : ((WeightedMean.empty : WeightedMean Float).merge u == u) = true ↔ u.Copied
  /-- A gather does the same with a slot that it moves alone. -/
  gathered : ∀ length i j : Nat, b.kind.takesSample = true → i < length → j < b.length →
    target j = some i → (∀ k < b.length, target k = some i → k = j) →
      (((b.gather length target).get i == b.get j) = true ↔ (b.get j).Copied)
  /-- In exact numbers that is wherever the total is not zero. -/
  exact_copied : Mean.empty.merge x = x ↔ x.count ≠ 0 ∨ x = Mean.empty
  exact_weighted_copied : WeightedMean.empty.merge y = y ↔ y.weight ≠ 0 ∨ y = .empty

/-- Merges keep totals and accumulators exactly where the totals do not cancel and products
are undone. -/
theorem merge_keeps_iff (m n : Mean Float) (u v : WeightedMean Float) (b : Bins)
    (target : Nat → Option Nat) (x : Mean ℚ) (y : WeightedMean ℚ) :
    MergeKeeps m n u v b target x y where
  count := Mean.merge_count_beq_iff m n
  weight := WeightedMean.merge_weight_beq_iff u v
  weightSquared := WeightedMean.merge_weightSquared_beq_iff u v
  copied := Mean.empty_merge_beq_iff m
  weighted_copied := WeightedMean.empty_merge_beq_iff u
  gathered := by
    intro length i j sampled inside below sent alone
    exact Bins.gather_beq_iff sampled inside (Bins.sources_eq_singleton below sent alone)
  exact_copied := Mean.exact_empty_merge x
  exact_weighted_copied := WeightedMean.exact_empty_merge y

/-- Entries of opposite weights are lost, between two accumulators and within one. -/
theorem not_keeps_opposite :
    (¬ ∀ m n : Mean Float, m.Filled → n.Filled →
      ((m.merge n).count == m.count + n.count) = true) ∧
    ¬ ∀ m : Mean Float, m.Filled → ((Mean.empty : Mean Float).merge m == m) = true := by
  have one : (Mean.empty.fill (1 : Float) 2).Filled := .fill 2 .empty (by decide +kernel)
  constructor
  · intro kept
    have other : (Mean.empty.fill (-1 : Float) 2).Filled := .fill 2 .empty (by decide +kernel)
    have lost : (((Mean.empty.fill (1 : Float) 2).merge (Mean.empty.fill (-1) 2)).count ==
        (Mean.empty.fill (1 : Float) 2).count + (Mean.empty.fill (-1) 2).count) = false := by
      decide +kernel
    exact Bool.false_ne_true (lost.symm.trans (kept _ _ one other))
  · intro copied
    have both : ((Mean.empty.fill (1 : Float) 2).fill (-1) 2).Filled :=
      .fill 2 one (by decide +kernel)
    have lost : ((Mean.empty : Mean Float).merge ((Mean.empty.fill (1 : Float) 2).fill (-1) 2) ==
        (Mean.empty.fill (1 : Float) 2).fill (-1) 2) = false := by
      decide +kernel
    exact Bool.false_ne_true (lost.symm.trans (copied _ both))

end Binning
