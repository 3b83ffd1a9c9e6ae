import Binning.Proofs.Binary64.Special
import Binning.Proofs.Binary64.Whole
import Mathlib.Order.WithBot
import Mathlib.Order.Compare

/-! The order of numbers. All but NaN stand on one line, on which the infinities are
the ends, so comparisons of them are those of a linear order. -/
namespace Binning.Binary64
open Float.Model Float.Model.UnpackedFloat

variable {x y z : Float} {p : Parts}

/-- Where a number stands, in units of the least positive one. NaN, which does not
stand anywhere, counts as the upper end. -/
def level (x : Float) : WithBot (WithTop ℤ) :=
  match parts? x with
  | some p => ((p.units : WithTop ℤ) : WithBot (WithTop ℤ))
  | none => if x < 0 then ⊥ else ⊤

theorem level_of_parts? (found : parts? x = some p) :
    level x = ((p.units : WithTop ℤ) : WithBot (WithTop ℤ)) := by
  rw [level, found]

@[simp] theorem level_infinity : level infinity = ⊤ := rfl

@[simp] theorem level_neg_infinity : level (-infinity) = ⊥ := rfl

theorem unpack_neg_infinity : (-infinity).toModel.unpack = .infinity .negative := rfl

/-- A number is finite or one of the infinities. -/
theorem cases_of_defined (defined : x.isNaN = false) :
    (∃ p, parts? x = some p) ∨ x = infinity ∨ x = -infinity := by
  cases shape : x.toModel.unpack with
  | zero | finite =>
    left
    rw [parts?_eq, shape]
    exact ⟨_, rfl⟩
  | notANumber =>
    rw [isNaN_iff.mpr shape] at defined
    contradiction
  | infinity s =>
    right
    cases s with
    | positive => exact .inl (eq_of_unpack_eq shape)
    | negative => exact .inr (eq_of_unpack_eq shape)

/-- A finite number is between the infinities. -/
theorem compare_infinities (found : parts? x = some p) :
    x.toModel.unpack.compare (.infinity .positive) = some .lt ∧
      x.toModel.unpack.compare (.infinity .negative) = some .gt ∧
      (UnpackedFloat.infinity .positive).compare x.toModel.unpack = some .gt ∧
      (UnpackedFloat.infinity .negative).compare x.toModel.unpack = some .lt := by
  rw [parts?_eq] at found
  cases shape : x.toModel.unpack with
  | infinity | notANumber =>
    rw [shape] at found
    contradiction
  | zero => exact ⟨rfl, rfl, rfl, rfl⟩
  | finite s => cases s <;> exact ⟨rfl, rfl, rfl, rfl⟩

theorem compare_level (left : x.isNaN = false) (right : y.isNaN = false) :
    x.toModel.unpack.compare y.toModel.unpack = some (compare (level x) (level y)) := by
  have between (n : ℤ) : (⊥ : WithBot (WithTop ℤ)) < ((n : WithTop ℤ) : WithBot (WithTop ℤ)) ∧
      ((n : WithTop ℤ) : WithBot (WithTop ℤ)) < ⊤ :=
    ⟨WithBot.bot_lt_coe _, WithBot.coe_lt_coe.mpr (WithTop.coe_lt_top n)⟩
  rcases cases_of_defined left with ⟨p, found⟩ | rfl | rfl <;>
    rcases cases_of_defined right with ⟨q, again⟩ | rfl | rfl
  case inl.inl =>
    rw [compare_eq found again, level_of_parts? found, level_of_parts? again]
    simp [compare, compareOfLessAndEq]
  case inl.inr.inl =>
    rw [unpack_infinity, (compare_infinities found).1, level_of_parts? found, level_infinity,
      compare_lt_iff_lt.mpr (between p.units).2]
  case inl.inr.inr =>
    rw [unpack_neg_infinity, (compare_infinities found).2.1, level_of_parts? found,
      level_neg_infinity, compare_gt_iff_gt.mpr (between p.units).1]
  case inr.inl.inl =>
    rw [unpack_infinity, (compare_infinities again).2.2.1, level_of_parts? again, level_infinity,
      compare_gt_iff_gt.mpr (between q.units).2]
  case inr.inr.inl =>
    rw [unpack_neg_infinity, (compare_infinities again).2.2.2, level_of_parts? again,
      level_neg_infinity, compare_lt_iff_lt.mpr (between q.units).1]
  all_goals
    simp only [unpack_infinity, unpack_neg_infinity, level_infinity, level_neg_infinity]
    decide

theorem lt_iff_level (left : x.isNaN = false) (right : y.isNaN = false) :
    x < y ↔ level x < level y := by
  have same := compare_level left right
  change (decide (x.toModel.unpack.lt y.toModel.unpack = true)) = true ↔ _
  rw [decide_eq_true_iff, UnpackedFloat.lt, same, beq_iff_eq, Option.some_inj, compare_lt_iff_lt]

theorem le_iff_level (left : x.isNaN = false) (right : y.isNaN = false) :
    x ≤ y ↔ level x ≤ level y := by
  have same := compare_level left right
  change (decide (x.toModel.unpack.le y.toModel.unpack = true)) = true ↔ _
  rw [decide_eq_true_iff, UnpackedFloat.le, same, Option.any_some, ← compare_le_iff_le]
  cases compare (level x) (level y) <;> decide

theorem lt_iff_not_le (left : x.isNaN = false) (right : y.isNaN = false) : x < y ↔ ¬ y ≤ x := by
  rw [lt_iff_level left right, le_iff_level right left, not_le]

theorem beq_iff_level (left : x.isNaN = false) (right : y.isNaN = false) :
    (x == y) = true ↔ level x = level y := by
  rw [beq_eq, UnpackedFloat.beq, compare_level left right, beq_iff_eq, Option.some_inj,
    compare_eq_iff_eq]

/-- NaN is not compared with any number. -/
theorem defined_of_le (below : x ≤ y) : x.isNaN = false ∧ y.isNaN = false := by
  change (decide (x.toModel.unpack.le y.toModel.unpack = true)) = true at below
  rw [decide_eq_true_iff] at below
  simp only [← Bool.not_eq_true, isNaN_iff]
  constructor
  · intro nan
    rw [nan] at below
    contradiction
  · intro nan
    rw [nan] at below
    cases shape : x.toModel.unpack <;> rw [shape] at below <;> contradiction

theorem le_trans (below : x ≤ y) (above : y ≤ z) : x ≤ z := by
  obtain ⟨left, middle⟩ := defined_of_le below
  obtain ⟨_, right⟩ := defined_of_le above
  rw [le_iff_level left middle] at below
  rw [le_iff_level middle right] at above
  exact (le_iff_level left right).mpr (below.trans above)

theorem defined_of_lt (below : x < y) : x.isNaN = false ∧ y.isNaN = false := by
  change (decide (x.toModel.unpack.lt y.toModel.unpack = true)) = true at below
  simp only [← Bool.not_eq_true, isNaN_iff]
  constructor
  · intro nan
    simp [nan, UnpackedFloat.lt, UnpackedFloat.compare] at below
  · intro nan
    cases shape : x.toModel.unpack <;>
      simp [nan, shape, UnpackedFloat.lt, UnpackedFloat.compare] at below

theorem le_of_lt (below : x < y) : x ≤ y := by
  obtain ⟨left, right⟩ := defined_of_lt below
  rw [lt_iff_level left right] at below
  exact (le_iff_level left right).mpr below.le

theorem lt_irrefl (x : Float) : ¬ x < x := by
  intro below
  obtain ⟨defined, _⟩ := defined_of_lt below
  rw [lt_iff_level defined defined] at below
  exact below.false

theorem lt_of_le_of_lt (below : x ≤ y) (above : y < z) : x < z := by
  obtain ⟨left, middle⟩ := defined_of_le below
  obtain ⟨_, right⟩ := defined_of_lt above
  rw [le_iff_level left middle] at below
  rw [lt_iff_level middle right] at above
  exact (lt_iff_level left right).mpr (below.trans_lt above)

theorem lt_of_lt_of_le (below : x < y) (above : y ≤ z) : x < z := by
  obtain ⟨left, middle⟩ := defined_of_lt below
  obtain ⟨_, right⟩ := defined_of_le above
  rw [lt_iff_level left middle] at below
  rw [le_iff_level middle right] at above
  exact (lt_iff_level left right).mpr (below.trans_le above)

theorem neg_infinity_le (defined : x.isNaN = false) : -infinity ≤ x := by
  rw [le_iff_level rfl defined, level_neg_infinity]
  exact bot_le

theorem le_infinity_of_defined (defined : x.isNaN = false) : x ≤ infinity := by
  rw [le_iff_level defined rfl, level_infinity]
  exact le_top

theorem infinity_le_iff (defined : x.isNaN = false) : infinity ≤ x ↔ x = infinity := by
  constructor
  · intro reaches
    rw [le_iff_level rfl defined, level_infinity, top_le_iff] at reaches
    rcases cases_of_defined defined with ⟨p, found⟩ | same | rfl
    · rw [level_of_parts? found] at reaches
      cases WithBot.coe_injective reaches
    · exact same
    · rw [level_neg_infinity] at reaches
      cases reaches
  · rintro rfl
    exact le_infinity_of_defined rfl

/-! ### Whole numbers -/

theorem Denotes.defined {i : Int} (denotes : Denotes x i) : x.isNaN = false := by
  obtain ⟨p, found, _⟩ := denotes
  exact defined_of_parts? found

theorem Denotes.beq_iff {i j : Int} (left : Denotes x i) (right : Denotes y j) :
    (x == y) = true ↔ i = j := by
  rw [beq_iff_level left.defined right.defined, le_antisymm_iff, le_antisymm_iff,
    ← le_iff_level left.defined right.defined, ← le_iff_level right.defined left.defined,
    left.le_iff right, right.le_iff left]

end Binning.Binary64
