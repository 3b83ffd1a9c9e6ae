import Binning.Proofs.Binary64.Differences

/-! Rounding to the nearest number. The sum, product or quotient of finite numbers is a
number that no other is closer to than it is to the exact result, or an infinity if that is
beyond all numbers. So results are in the order of the exact ones, and none passes a
number that the exact one does not pass. -/
namespace Binning.Binary64
open Float.Model Float.Model.UnpackedFloat

/-! ### Significands -/

/-- What a significand stands for before it is rounded. The round bit tells that it is half
a place or more above the whole places, the sticky bit that it is not just there. -/
def Represents (em : ExtendedMantissa) (t : ℚ) : Prop :=
  match em.roundBit, em.stickyBit with
  | false, false => t = em.mantissa
  | false, true => em.mantissa < t ∧ t < em.mantissa + 1 / 2
  | true, false => t = em.mantissa + 1 / 2
  | true, true => em.mantissa + 1 / 2 < t ∧ t < em.mantissa + 1

namespace Represents
variable {em : ExtendedMantissa} {t : ℚ}

theorem bounds (represents : Represents em t) : em.mantissa ≤ t ∧ t < em.mantissa + 1 := by
  obtain ⟨m, roundBit, stickyBit⟩ := em
  cases roundBit <;> cases stickyBit <;> simp only [Represents] at represents ⊢ <;>
    constructor <;> linarith

/-- Rounding goes to a nearest whole place. -/
theorem near (represents : Represents em t) : |(em.roundedMantissa : ℚ) - t| ≤ 1 / 2 := by
  obtain ⟨m, roundBit, stickyBit⟩ := em
  rw [abs_le]
  cases roundBit <;> cases stickyBit <;> simp only [Represents] at represents <;>
    simp only [ExtendedMantissa.roundedMantissa, ExtendedMantissa.accuracy,
      Accuracy.roundToNearestEven]
  case true.false =>
    rcases Nat.mod_two_eq_zero_or_one m with parity | parity <;> rw [parity] <;> push_cast <;>
      constructor <;> linarith
  all_goals
    push_cast
    constructor <;> linarith

theorem shiftRightOne (represents : Represents em t) : Represents em.shiftRightOne (t / 2) := by
  obtain ⟨m, roundBit, stickyBit⟩ := em
  obtain ⟨half, bit, split⟩ : ∃ half : ℕ, m / 2 = half ∧ (m = 2 * half ∧ (m % 2 != 0) = false ∨
      m = 2 * half + 1 ∧ (m % 2 != 0) = true) := by
    refine ⟨m / 2, rfl, ?_⟩
    rcases Nat.mod_two_eq_zero_or_one m with parity | parity
    · exact .inl ⟨by omega, by rw [parity]; rfl⟩
    · exact .inr ⟨by omega, by rw [parity]; rfl⟩
  simp only [Represents, ExtendedMantissa.shiftRightOne, bit]
  rcases split with ⟨rfl, last⟩ | ⟨rfl, last⟩ <;> cases roundBit <;> cases stickyBit <;>
    simp only [last, Bool.or_self, Bool.or_true, Bool.or_false] <;>
    simp only [Represents] at represents <;> push_cast at represents <;>
    first | linarith | (constructor <;> linarith)

theorem shiftRight (represents : Represents em t) (k : ℕ) : Represents (em >>> k) (t / 2 ^ k) := by
  change Represents (Nat.repeat ExtendedMantissa.shiftRightOne k em) _
  induction k with
  | zero => rwa [pow_zero, div_one]
  | succ k ih =>
    rw [Nat.repeat, pow_succ, ← div_div]
    exact ih.shiftRightOne

end Represents

theorem represents_exact (m : ℕ) : Represents (.ofMantissaAndAccuracy m .exact) m := rfl

/-- The whole part of a fraction, with the accuracy that its rest gives. -/
theorem represents_fraction (a : ℕ) {b : ℕ} (pos : 0 < b) :
    Represents (.ofMantissaAndAccuracy (a / b) (accuracyOfFraction (a % b) b)) (a / b : ℚ) := by
  have denominator : (0 : ℚ) < b := Nat.cast_pos.mpr pos
  have rest : (a % b : ℕ) < b := Nat.mod_lt a pos
  have split : (a : ℚ) / b = (a / b : ℕ) + (a % b : ℕ) / (b : ℚ) := by
    rw [div_eq_iff denominator.ne', add_mul, div_mul_cancel₀ _ denominator.ne']
    exact_mod_cast (Nat.div_add_mod' a b).symm
  rw [split]
  generalize a % b = r at rest
  generalize a / b = m
  unfold accuracyOfFraction
  split
  · rename_i none
    rw [none, Nat.cast_zero, zero_div, add_zero]
    exact represents_exact m
  · rename_i some
    have positive : (0 : ℚ) < r / b :=
      div_pos (Nat.cast_pos.mpr (Nat.pos_of_ne_zero some)) denominator
    rcases Nat.lt_trichotomy (2 * r) b with less | same | more
    · rw [compare_lt_iff_lt.mpr less]
      have half : (r : ℚ) / b < 1 / 2 := by
        rw [div_lt_div_iff₀ denominator two_pos, one_mul, mul_comm]
        exact_mod_cast less
      exact ⟨by simp only [ExtendedMantissa.ofMantissaAndAccuracy]; linarith,
        by simp only [ExtendedMantissa.ofMantissaAndAccuracy]; linarith⟩
    · rw [compare_eq_iff_eq.mpr same]
      have half : (r : ℚ) / b = 1 / 2 := by
        rw [div_eq_div_iff denominator.ne' two_ne_zero, one_mul, mul_comm]
        exact_mod_cast same
      change (m : ℚ) + r / b = m + 1 / 2
      rw [half]
    · rw [compare_gt_iff_gt.mpr more]
      have half : 1 / 2 < (r : ℚ) / b := by
        rw [div_lt_div_iff₀ two_pos denominator, one_mul, mul_comm]
        exact_mod_cast more
      have whole : (r : ℚ) / b < 1 := by
        rw [div_lt_one denominator]
        exact_mod_cast rest
      exact ⟨by simp only [ExtendedMantissa.ofMantissaAndAccuracy]; linarith,
        by simp only [ExtendedMantissa.ofMantissaAndAccuracy]; linarith⟩

/-! ### Rounding -/

/-- The number of the last place that is kept of `m * 2 ^ e`, counted from the least one. -/
def lastPlace (m : ℕ) (e : ℤ) : ℕ := (m.log2 + e + 1022).toNat

theorem targetExponent_eq_lastPlace (m : ℕ) (e : ℤ) :
    Format.binary64.targetExponent (totalExponent m e) = (lastPlace m e : ℤ) - 1074 := by
  simp only [Format.targetExponent, totalExponent, lastPlace]
  change max ((m.log2 : ℤ) + 1 + e - 53) (-1074) = _
  omega

/-- No more than 53 bits are kept where the last `k` are dropped. -/
theorem le_of_lastPlace {m k : ℕ} {e : ℤ} (shift : (lastPlace m e : ℤ) = e + 1074 + k) :
    m + 1 ≤ 2 ^ (53 + k) := by
  refine Nat.le_trans Nat.lt_log2_self (Nat.pow_le_pow_right two_pos ?_)
  unfold lastPlace at shift
  omega

/-- All 53 bits are kept unless the last place is the least. -/
theorem le_of_lastPlace_ne_zero {m k : ℕ} {e : ℤ} (some_place : lastPlace m e ≠ 0)
    (shift : (lastPlace m e : ℤ) = e + 1074 + k) : 2 ^ (52 + k) ≤ m := by
  unfold lastPlace at some_place shift
  have bits : m.log2 = 52 + k := by omega
  have positive : m ≠ 0 := by
    rintro rfl
    rw [Nat.log2_zero] at bits
    omega
  exact bits ▸ Nat.log2_self_le positive

/-- `v` is rounded to `r` places `T`. -/
structure Rounded (v : ℚ) (r T : ℕ) : Prop where
  small : r ≤ 2 ^ 53
  normal : T ≠ 0 → 2 ^ 52 * 2 ^ T ≤ v
  near : |(r : ℚ) * 2 ^ T - v| ≤ 2 ^ T / 2

theorem mantissa_ofMantissaAndAccuracy (m : ℕ) (accuracy : Accuracy) :
    (ExtendedMantissa.ofMantissaAndAccuracy m accuracy).mantissa = m := by
  rcases accuracy with _ | (_ | _ | _) <;> rfl

theorem rounded_roundWithAccuracy (s : Sign) {m : ℕ} {e : ℤ} {accuracy : Accuracy} {t : ℚ}
    (represents : Represents (.ofMantissaAndAccuracy m accuracy) t)
    (finer : e + 1074 ≤ lastPlace m e) :
    ∃ r T, roundWithAccuracy .binary64 s m e accuracy = settle s r T ∧
      Rounded (t * 2 ^ (e + 1074)) r T := by
  obtain ⟨k, shift⟩ : ∃ k : ℕ, (lastPlace m e : ℤ) = e + 1074 + k :=
    ⟨(lastPlace m e - (e + 1074)).toNat, by omega⟩
  have amount : ((lastPlace m e : ℤ) - 1074 - e).toNat = k := by omega
  have exponent : e + k = (lastPlace m e : ℤ) - 1074 := by omega
  have shifted := represents.shiftRight k
  have value : t / 2 ^ k * 2 ^ lastPlace m e = t * 2 ^ (e + 1074) := by
    rw [← zpow_natCast 2 (lastPlace m e), shift, zpow_add₀ two_ne_zero, zpow_natCast]
    field_simp
  obtain ⟨low, high⟩ := represents.bounds
  rw [mantissa_ofMantissaAndAccuracy] at low high
  have near := shifted.near
  have short : t / 2 ^ k < 2 ^ 53 := by
    rw [div_lt_iff₀ (by positivity), ← pow_add]
    refine high.trans_le ?_
    exact_mod_cast le_of_lastPlace shift
  generalize rounds : (ExtendedMantissa.ofMantissaAndAccuracy m accuracy >>> k).roundedMantissa = r
    at near
  have small : r ≤ 2 ^ 53 := by
    have below : (r : ℚ) < (2 ^ 53 + 1 : ℕ) := by
      push_cast
      linarith [(abs_le.mp near).2]
    exact Nat.lt_succ_iff.mp (Nat.cast_lt.mp below)
  refine ⟨r, lastPlace m e, ?rounds, small, ?normal, ?near⟩
  case rounds =>
    rw [← settle_eq s small, roundWithAccuracy, shiftToTargetExponent, targetExponent_eq_lastPlace,
      shiftToExponent]
    simp only [amount, exponent, rounds]
  case normal =>
    intro some_place
    rw [← value]
    refine mul_le_mul_of_nonneg_right ?_ (by positivity)
    rw [le_div_iff₀ (by positivity), ← pow_add]
    refine low.trans' ?_
    exact_mod_cast le_of_lastPlace_ne_zero some_place shift
  case near =>
    have scale : (0 : ℚ) < 2 ^ lastPlace m e := by positivity
    calc |(r : ℚ) * 2 ^ lastPlace m e - t * 2 ^ (e + 1074)|
        = |(r : ℚ) - t / 2 ^ k| * 2 ^ lastPlace m e := by
          rw [← value, ← sub_mul, abs_mul, abs_of_pos scale]
      _ ≤ 1 / 2 * 2 ^ lastPlace m e := mul_le_mul_of_nonneg_right near scale.le
      _ = 2 ^ lastPlace m e / 2 := one_div_mul_eq_div ..

variable {v w : ℚ} {x y : Float} {p q : Parts}

namespace Rounded
variable {r T : ℕ} (rounded : Rounded v r T)
include rounded

/-- No multiple of the last place is closer. -/
theorem le_multiple (j : ℤ) : |(r : ℚ) * 2 ^ T - v| ≤ |j * 2 ^ T - v| := by
  by_cases same : j = r
  · rw [same, Int.cast_natCast]
  have scale : (0 : ℚ) < 2 ^ T := by positivity
  have apart : (1 : ℚ) ≤ |(j : ℚ) - r| := by
    have whole : 1 ≤ |j - r| := Int.one_le_abs (sub_ne_zero.mpr same)
    exact_mod_cast whole
  have far : (2 : ℚ) ^ T ≤ |j * 2 ^ T - v| + |(r : ℚ) * 2 ^ T - v| := by
    calc (2 : ℚ) ^ T ≤ |(j : ℚ) - r| * 2 ^ T := le_mul_of_one_le_left scale.le apart
      _ = |(j * 2 ^ T - v) - (r * 2 ^ T - v)| := by
        rw [sub_sub_sub_cancel_right, ← sub_mul, abs_mul, abs_of_pos scale]
      _ ≤ _ := abs_sub _ _
  linarith [rounded.near]

/-- No number is closer: one with a lower last place is not that large. -/
theorem le_units (shape : Canonical q.significand q.exponent) :
    |(r : ℚ) * 2 ^ T - v| ≤ |(q.units : ℚ) - v| := by
  rw [units_eq]
  generalize (q.exponent + 1074).toNat = F
  rcases Nat.lt_or_ge F T with finer | coarser
  · have bound : (2 : ℚ) ^ 52 * 2 ^ T ≤ v := rounded.normal (by omega)
    have small : (q.withSign q.significand : ℚ) < 2 ^ 53 := by
      exact_mod_cast (withSign_bounds q shape.significand).2
    have below : (q.withSign q.significand : ℚ) * 2 ^ F ≤ 2 ^ 52 * 2 ^ T := by
      calc (q.withSign q.significand : ℚ) * 2 ^ F ≤ 2 ^ 53 * 2 ^ F :=
            mul_le_mul_of_nonneg_right small.le (by positivity)
        _ = 2 ^ 52 * 2 ^ (F + 1) := by ring
        _ ≤ 2 ^ 52 * 2 ^ T :=
          mul_le_mul_of_nonneg_left (pow_le_pow_right₀ one_le_two finer) (by positivity)
    have multiple := rounded.le_multiple (2 ^ 52)
    rw [Int.cast_pow, Int.cast_ofNat, abs_of_nonpos (sub_nonpos.mpr bound)] at multiple
    push_cast
    rw [abs_of_nonpos (sub_nonpos.mpr (below.trans bound))]
    linarith
  · have multiple := rounded.le_multiple (q.withSign q.significand * 2 ^ (F - T))
    push_cast at multiple ⊢
    rwa [mul_assoc, ← pow_add, Nat.sub_add_cancel coarser] at multiple

theorem le_mantissa (some_place : T ≠ 0) : 2 ^ 52 ≤ r := by
  have scale : (0 : ℚ) < 2 ^ T := by positivity
  have low := rounded.normal some_place
  have near := (abs_le.mp rounded.near).1
  have above : ((2 : ℚ) ^ 52 - 1) * 2 ^ T < r * 2 ^ T := by linarith
  have whole := lt_of_mul_lt_mul_right above scale.le
  have whole : (2 ^ 52 : ℚ) < (r + 1 : ℕ) := by
    push_cast
    linarith
  exact Nat.lt_succ_iff.mp (by exact_mod_cast whole)

end Rounded

/-! ### Nearest numbers -/

/-- The power of two that is the first beyond the finite numbers, in units of the least
positive number. -/
@[irreducible] def limitUnits : ℕ := 2 ^ 2098

theorem cast_limitUnits {T : ℕ} (below : T ≤ 2098) : (limitUnits : ℚ) = 2 ^ (2098 - T) * 2 ^ T := by
  unfold limitUnits
  generalize 2098 = last at below ⊢
  push_cast
  exact (pow_sub_mul_pow 2 below).symm

theorem cast_limitUnits_le {T : ℕ} (beyond : 2046 ≤ T) : (limitUnits : ℚ) ≤ 2 ^ 52 * 2 ^ T := by
  rw [cast_limitUnits (T := 2046) (by decide)]
  exact mul_le_mul_of_nonneg_left (pow_le_pow_right₀ one_le_two beyond) (by positivity)

/-- Where a number stands when an infinity counts as the limit. -/
def extent (x : Float) : ℚ :=
  match parts? x with
  | some p => p.units
  | none => if x < 0 then -limitUnits else limitUnits

theorem extent_of_parts? (found : parts? x = some p) : extent x = p.units := by
  rw [extent, found]

theorem extent_infinity : extent infinity = limitUnits := rfl

theorem extent_neg_infinity : extent (-infinity) = -limitUnits := rfl

/-- A finite number is short of the limit. -/
theorem units_lt_limit (found : parts? x = some p) :
    (-limitUnits : ℚ) < p.units ∧ (p.units : ℚ) < limitUnits := by
  have shape := canonical_of_parts? found
  obtain ⟨low, high⟩ := withSign_bounds p shape.significand
  have greatest := shape.greatest
  have least := shape.least
  have scale : (0 : ℚ) < 2 ^ (p.exponent + 1074).toNat := by positivity
  have bound : (2 : ℚ) ^ 53 * 2 ^ (p.exponent + 1074).toNat ≤ limitUnits := by
    rw [cast_limitUnits (T := 2045) (by decide)]
    exact mul_le_mul_of_nonneg_left (pow_le_pow_right₀ one_le_two (by omega)) (by positivity)
  have low : (-2 ^ 53 : ℚ) < p.withSign p.significand := by exact_mod_cast low
  have high : (p.withSign p.significand : ℚ) < 2 ^ 53 := by exact_mod_cast high
  rw [units_eq]
  push_cast
  constructor
  · refine (neg_le_neg bound).trans_lt ?_
    rw [← neg_mul]
    exact mul_lt_mul_of_pos_right low scale
  · exact (mul_lt_mul_of_pos_right high scale).trans_le bound

theorem extent_le_limit (defined : x.isNaN = false) : extent x ≤ limitUnits := by
  rcases cases_of_defined defined with ⟨p, found⟩ | rfl | rfl
  · rw [extent_of_parts? found]
    exact (units_lt_limit found).2.le
  · exact extent_infinity.le
  · rw [extent_neg_infinity]
    exact neg_le_self (Nat.cast_nonneg _)

/-- The numbers stand the same way on both sides of zero. -/
theorem extent_neg (defined : x.isNaN = false) :
    (-x).isNaN = false ∧ extent (-x) = -extent x := by
  rcases cases_of_defined defined with ⟨p, found⟩ | rfl | rfl
  · have negative := parts?_neg found
    refine ⟨defined_of_parts? negative, ?_⟩
    rw [extent_of_parts? negative, extent_of_parts? found, units_not, Int.cast_neg]
  · exact ⟨rfl, extent_neg_infinity⟩
  · exact ⟨rfl, (neg_neg _).symm⟩

theorem le_iff_extent (left : x.isNaN = false) (right : y.isNaN = false) :
    x ≤ y ↔ extent x ≤ extent y := by
  have wide : (-limitUnits : ℚ) < limitUnits :=
    (units_lt_limit (parts?_pack_zero .positive)).1.trans
      (units_lt_limit (parts?_pack_zero .positive)).2
  rcases cases_of_defined left with ⟨p, found⟩ | rfl | rfl
  · rcases cases_of_defined right with ⟨q, again⟩ | rfl | rfl
    · rw [le_iff found again, extent_of_parts? found, extent_of_parts? again, Int.cast_le]
    · exact iff_of_true (le_infinity_of_defined left) (extent_le_limit left)
    · rw [extent_of_parts? found, extent_neg_infinity, le_iff_level left rfl,
        level_of_parts? found, level_neg_infinity, le_bot_iff]
      exact iff_of_false (WithBot.coe_ne_bot) (not_le.mpr (units_lt_limit found).1)
  · rw [infinity_le_iff right]
    rcases cases_of_defined right with ⟨q, again⟩ | rfl | rfl
    · rw [extent_infinity, extent_of_parts? again]
      refine iff_of_false ?_ (not_le.mpr (units_lt_limit again).2)
      rintro rfl
      contradiction
    · exact iff_of_true rfl le_rfl
    · exact iff_of_false (by decide) (not_le.mpr wide)
  · obtain ⟨defined, opposite⟩ := extent_neg right
    have low := extent_le_limit defined
    rw [opposite] at low
    exact iff_of_true (neg_infinity_le right) (neg_le.mp low)

/-- No number is closer than `x` to `v` units of the least positive number. -/
structure Nearest (x : Float) (v : ℚ) : Prop where
  defined : x.isNaN = false
  closest : ∀ y : Float, y.isNaN = false → |extent x - v| ≤ |extent y - v|

/-- The value with the sign. -/
def signed : Sign → ℚ → ℚ
  | .positive, v => v
  | .negative, v => -v

theorem cast_apply (s : Sign) (n : ℕ) : ((s.apply (n : ℤ) : ℤ) : ℚ) = signed s n := by
  cases s with
  | positive => exact Int.cast_natCast n
  | negative =>
    change ((-(n : ℤ) : ℤ) : ℚ) = -(n : ℚ)
    rw [Int.cast_neg, Int.cast_natCast]

/-- A number of the sign that stands where no number is closer. -/
theorem nearest_of_extent (s : Sign) {u : ℚ} (defined : x.isNaN = false)
    (stands : extent x = signed s u)
    (closest : ∀ y : Float, y.isNaN = false → |u - v| ≤ |extent y - v|) :
    Nearest x (signed s v) := by
  refine ⟨defined, fun y other => ?_⟩
  rw [stands]
  cases s with
  | positive => exact closest y other
  | negative =>
    obtain ⟨mirrored, opposite⟩ := extent_neg other
    have near := closest (-y) mirrored
    change |-u - -v| ≤ |extent y - -v|
    rwa [opposite, ← abs_neg (-extent y - v), neg_sub, sub_neg_eq_add, add_comm,
      ← sub_neg_eq_add, ← abs_neg (u - v), neg_sub'] at near

/-- A number that is too large is packed as the infinity of its sign. -/
theorem extent_settle_large (s : Sign) {r T : ℕ} (some_bits : r ≠ 0)
    (large : ¬ (T < 2045 ∨ T = 2045 ∧ r < 2 ^ 53)) :
    (Float.ofModel (.pack (settle s r T))).isNaN = false ∧
      extent (.ofModel (.pack (settle s r T))) = signed s limitUnits := by
  have packed {m : ℕ} {e : ℤ} (pos : 0 < m) (above : 972 ≤ e) :
      (Float.ofModel (.pack (.finite s m e pos))).isNaN = false ∧
        extent (.ofModel (.pack (.finite s m e pos))) = signed s limitUnits := by
    cases s with
    | positive =>
      rw [pack_finite_large pos above]
      exact ⟨rfl, rfl⟩
    | negative =>
      rw [pack_negative_large pos above]
      exact ⟨rfl, rfl⟩
  rw [settle, dif_neg some_bits]
  split
  · exact packed _ (by omega)
  · exact packed _ (by omega)

theorem Rounded.le_extent {r T : ℕ} (rounded : Rounded v r T) (inside : T ≤ 2098)
    (defined : y.isNaN = false) : |(r : ℚ) * 2 ^ T - v| ≤ |extent y - v| := by
  rcases cases_of_defined defined with ⟨q, found⟩ | rfl | rfl
  · rw [extent_of_parts? found]
    exact rounded.le_units (canonical_of_parts? found)
  · have multiple := rounded.le_multiple (2 ^ (2098 - T))
    rw [extent_infinity, cast_limitUnits inside]
    push_cast at multiple
    exact multiple
  · have multiple := rounded.le_multiple (-2 ^ (2098 - T))
    rw [extent_neg_infinity, cast_limitUnits inside, ← neg_mul]
    push_cast at multiple
    exact multiple

theorem nearest_settle (s : Sign) {r T : ℕ} (rounded : Rounded v r T) :
    Nearest (.ofModel (.pack (settle s r T))) (signed s v) := by
  by_cases fits : T < 2045 ∨ T = 2045 ∧ r < 2 ^ 53
  · obtain ⟨p, found, units⟩ := parts?_settle s rounded.small rounded.le_mantissa fits
    refine nearest_of_extent s (u := r * 2 ^ T)
      (defined_of_parts? found) ?_
      fun y defined => rounded.le_extent (by omega) defined
    rw [extent_of_parts? found, units, cast_apply]
    push_cast
    rfl
  · have some_bits : r ≠ 0 := by
      have normal := rounded.le_mantissa (by omega)
      omega
    obtain ⟨defined, stands⟩ := extent_settle_large s some_bits fits
    refine nearest_of_extent s defined stands fun y other => ?_
    rcases Nat.lt_or_ge T 2046 with last | beyond
    · -- just rounded up to the limit
      obtain rfl : T = 2045 := by omega
      obtain rfl : r = 2 ^ 53 := by
        have small := rounded.small
        omega
      have near := rounded.le_extent (by decide) other
      rw [cast_limitUnits (T := 2045) (by decide)]
      push_cast at near
      exact near
    · have reached : (limitUnits : ℚ) ≤ v :=
        (cast_limitUnits_le beyond).trans (rounded.normal (by omega))
      have short := extent_le_limit other
      rw [abs_of_nonpos (sub_nonpos.mpr reached),
        abs_of_nonpos (sub_nonpos.mpr (short.trans reached))]
      linarith

/-! ### Results -/

theorem nearest_of_units (found : parts? x = some p) : Nearest x p.units := by
  refine ⟨defined_of_parts? found, fun y _ => ?_⟩
  rw [extent_of_parts? found, sub_self, abs_zero]
  exact abs_nonneg _

theorem nearest_zero (s : Sign) : Nearest (.ofModel (.pack (.zero s))) 0 := by
  have nearest := nearest_of_units (parts?_pack_zero s)
  rwa [units_zero, Int.cast_zero] at nearest

theorem nearest_roundWithAccuracy (s : Sign) {m : ℕ} {e : ℤ} {accuracy : Accuracy} {t : ℚ}
    (represents : Represents (.ofMantissaAndAccuracy m accuracy) t)
    (finer : e + 1074 ≤ lastPlace m e) :
    Nearest (.ofModel (.pack (roundWithAccuracy .binary64 s m e accuracy)))
      (signed s (t * 2 ^ (e + 1074))) := by
  obtain ⟨r, T, rounds, rounded⟩ := rounded_roundWithAccuracy s represents finer
  rw [rounds]
  exact nearest_settle s rounded

/-- Rounding from any exponent. -/
theorem nearest_round (s : Sign) {m : ℕ} (pos : 0 < m) (e : ℤ) :
    Nearest (.ofModel (.pack (UnpackedFloat.round .binary64 s m e)))
      (signed s (m * 2 ^ (e + 1074))) := by
  obtain ⟨k, amount⟩ : ∃ k : ℕ, (e - ((lastPlace m e : ℤ) - 1074)).toNat = k := ⟨_, rfl⟩
  have shifted : (m : ℚ) * 2 ^ (e + 1074) = (m * 2 ^ k : ℕ) * 2 ^ (e - k + 1074) := by
    have exponent : e + 1074 = k + (e - k + 1074) := by ring
    rw [exponent, zpow_add₀ two_ne_zero, zpow_natCast]
    push_cast
    ring
  have log := log2_mul_two_pow pos k
  rw [shifted]
  unfold UnpackedFloat.round decreaseExponent
  simp only [targetExponent_eq_lastPlace, amount, Nat.shiftLeft_eq]
  refine nearest_roundWithAccuracy s (represents_exact _) ?_
  unfold lastPlace at amount ⊢
  omega

theorem nearest_normalize (M e : ℤ) (s : Sign) :
    Nearest (.ofModel (.pack (UnpackedFloat.normalize .binary64 M e s))) (M * 2 ^ (e + 1074)) := by
  unfold UnpackedFloat.normalize
  split
  · rename_i below
    have negative := compare_lt_iff_lt.mp below
    have nearest := nearest_round .negative (m := (-M).toNat) (by omega) e
    have size : (((-M).toNat : ℕ) : ℚ) = -M := by
      rw [← Int.cast_natCast, Int.toNat_of_nonneg (by omega), Int.cast_neg]
    rw [size, neg_mul] at nearest
    change Nearest _ (- -((M : ℚ) * _)) at nearest
    rwa [neg_neg] at nearest
  · rename_i same
    rw [compare_eq_iff_eq.mp same, Int.cast_zero, zero_mul]
    exact nearest_zero s
  · rename_i above
    have positive := compare_gt_iff_gt.mp above
    have nearest := nearest_round .positive (m := M.toNat) (by omega) e
    have size : ((M.toNat : ℕ) : ℚ) = M := by
      rw [← Int.cast_natCast, Int.toNat_of_nonneg positive.le]
    rwa [size] at nearest

theorem cast_oneUnits : (oneUnits : ℚ) = 2 ^ (1074 : ℤ) := by
  unfold oneUnits
  rw [Nat.cast_pow, Nat.cast_ofNat, ← zpow_natCast]
  rfl

theorem cast_units (s : Sign) (m : ℕ) {e : ℤ} (least : -1074 ≤ e) :
    (Parts.units ⟨s == .negative, m, e⟩ : ℚ) = signed s (m * 2 ^ (e + 1074)) := by
  obtain ⟨E, exponent⟩ : ∃ E : ℕ, e + 1074 = E := ⟨(e + 1074).toNat, by omega⟩
  rw [units_eq_apply, exponent, Int.toNat_natCast, zpow_natCast]
  push_cast
  rw [cast_apply]
  cases s with
  | positive => rfl
  | negative => exact neg_mul ..

theorem nearest_ofNat {n : ℕ} (word : n < 2 ^ 64) : Nearest (ofNat n) (n * oneUnits) := by
  rcases Nat.eq_zero_or_pos n with rfl | pos
  · rw [Nat.cast_zero, zero_mul]
    exact nearest_zero .positive
  · rw [ofNat_eq_round pos word, cast_oneUnits]
    exact nearest_round .positive pos ((1074 : ℕ) - 1074)

/-! ### Operations -/

theorem nearest_add_unpacked {u w : UnpackedFloat} (left : partsOf u = some p)
    (right : partsOf w = some q) (left_shape : Canonical p.significand p.exponent)
    (right_shape : Canonical q.significand q.exponent) :
    Nearest (.ofModel (.pack (u.add .binary64 w))) (p.units + q.units) := by
  cases u with
  | infinity | notANumber => contradiction
  | zero s =>
    cases left
    rw [units_zero, Int.cast_zero, zero_add]
    cases w with
    | infinity | notANumber => contradiction
    | zero t =>
      obtain ⟨r, sum⟩ := add_zeros s t
      cases right
      rw [units_zero, Int.cast_zero, sum]
      exact nearest_zero r
    | finite t k e pos => exact nearest_of_units (parts?_pack_of_canonical right right_shape)
  | finite s m d pos =>
    cases w with
    | infinity | notANumber => contradiction
    | zero t =>
      cases right
      rw [units_zero, Int.cast_zero, add_zero]
      exact nearest_of_units (parts?_pack_of_canonical left left_shape)
    | finite t k e other =>
      cases left
      cases right
      obtain ⟨M, E, normalized, exact_sum⟩ :=
        add_finite_eq (s := s) (t := t) pos other left_shape.least right_shape.least
      have nearest := nearest_normalize M ((E : ℤ) - 1074) .positive
      rw [sub_add_cancel, zpow_natCast] at nearest
      rw [normalized, ← Int.cast_add, ← exact_sum]
      push_cast
      exact nearest

theorem zpow_add_add (d e c : ℤ) : (2 : ℚ) ^ (d + e + c) = 2 ^ (d + c) * 2 ^ (e + c) / 2 ^ c := by
  rw [← zpow_add₀ two_ne_zero, ← zpow_sub₀ two_ne_zero]
  congr 1
  ring

theorem zpow_sub_add (d e c : ℤ) : (2 : ℚ) ^ (d - e + c) = 2 ^ (d + c) / 2 ^ (e + c) * 2 ^ c := by
  rw [← zpow_sub₀ two_ne_zero, ← zpow_add₀ two_ne_zero]
  congr 1
  ring

/-- A product has at least the bits of either factor. -/
theorem le_log2_mul {m k n : ℕ} (pos : 0 < m) (other : 0 < k) (bits : 2 ^ n ≤ m ∨ 2 ^ n ≤ k) :
    n ≤ (m * k).log2 := by
  rw [Nat.le_log2 (Nat.mul_pos pos other).ne']
  rcases bits with left | right
  · exact left.trans (Nat.le_mul_of_pos_right m other)
  · exact right.trans (Nat.le_mul_of_pos_left k pos)

/-- A dividend that is longer by so many bits leaves as many in the quotient. -/
theorem le_log2_div {m k shift n : ℕ} (pos : 0 < m) (other : 0 < k)
    (bits : n + 1 + k.log2 ≤ m.log2 + shift) : n ≤ (m <<< shift / k).log2 := by
  have long : 2 ^ n ≤ m <<< shift / k := by
    rw [Nat.le_div_iff_mul_le other, Nat.shiftLeft_eq]
    calc 2 ^ n * k ≤ 2 ^ n * 2 ^ (k.log2 + 1) := Nat.mul_le_mul_left _ Nat.lt_log2_self.le
      _ = 2 ^ (n + 1 + k.log2) := by ring
      _ ≤ 2 ^ (m.log2 + shift) := Nat.pow_le_pow_right two_pos bits
      _ = 2 ^ m.log2 * 2 ^ shift := pow_add ..
      _ ≤ m * 2 ^ shift := Nat.mul_le_mul_right _ (Nat.log2_self_le pos.ne')
  exact (Nat.le_log2 (Nat.ne_of_gt ((Nat.two_pow_pos n).trans_le long))).mpr long

/-- The places of a quotient are those of its whole part. -/
theorem le_lastPlace_div {m k shift : ℕ} {d e target : ℤ} (pos : 0 < m) (other : 0 < k)
    (chosen : min (d - e) (Format.binary64.targetExponent (totalExponent m d - totalExponent k e)) =
      target) (exponent : d - e = shift + target) :
    target + 1074 ≤ lastPlace (m <<< shift / k) target := by
  have bits : 52 + 1 + k.log2 ≤ m.log2 + shift → 52 ≤ (m <<< shift / k).log2 :=
    le_log2_div pos other
  have least : Format.binary64.targetExponent (totalExponent m d - totalExponent k e) =
      max ((m.log2 : ℤ) + 1 + d - (k.log2 + 1 + e) - 53) (-1074) := rfl
  rw [least] at chosen
  unfold lastPlace
  omega

theorem div_shiftLeft {m k shift : ℕ} {d e target : ℤ} (exponent : d - e = shift + target) :
    ((m <<< shift : ℕ) : ℚ) / k * 2 ^ (target + 1074) =
      m * 2 ^ (d + 1074) / (k * 2 ^ (e + 1074)) * 2 ^ (1074 : ℤ) := by
  calc ((m <<< shift : ℕ) : ℚ) / k * 2 ^ (target + 1074)
      = m / k * (2 ^ shift * 2 ^ (target + 1074)) := by
        rw [Nat.shiftLeft_eq]
        push_cast
        ring
    _ = m / k * 2 ^ (d - e + 1074) := by
        rw [exponent, ← zpow_natCast, ← zpow_add₀ two_ne_zero, add_assoc]
    _ = _ := by
        rw [zpow_sub_add, ← mul_assoc, div_mul_div_comm]

theorem signed_mul (s t : Sign) (a b c : ℚ) :
    signed (s * t) (a * b / c) = signed s a * signed t b / c := by
  cases s <;> cases t
  · change a * b / c = -a * -b / c
    rw [neg_mul_neg]
  · change -(a * b / c) = -a * b / c
    rw [neg_mul, neg_div]
  · change -(a * b / c) = a * -b / c
    rw [mul_neg, neg_div]
  · rfl

theorem signed_div (s t : Sign) (a b c : ℚ) :
    signed (s / t) (a / b * c) = signed s a / signed t b * c := by
  cases s <;> cases t
  · change a / b * c = -a / -b * c
    rw [neg_div_neg_eq]
  · change -(a / b * c) = -a / b * c
    rw [neg_div, neg_mul]
  · change -(a / b * c) = a / -b * c
    rw [div_neg, neg_mul]
  · rfl

section
variable (left : parts? x = some p) (right : parts? y = some q)
include left right

theorem nearest_add : Nearest (x + y) (p.units + q.units) := by
  have left_shape := canonical_of_parts? left
  have right_shape := canonical_of_parts? right
  rw [parts?_eq] at left right
  rw [add_eq_pack]
  exact nearest_add_unpacked left right left_shape right_shape

theorem nearest_sub : Nearest (x - y) (p.units - q.units) := by
  have left_shape := canonical_of_parts? left
  have right_shape := canonical_of_parts? right
  rw [parts?_eq] at left right
  change Nearest (.ofModel (.pack (.sub .binary64 x.toModel.unpack y.toModel.unpack))) _
  have nearest := nearest_add_unpacked left (partsOf_neg right) left_shape right_shape
  have difference : (p.units : ℚ) + -q.units = p.units - q.units := by ring
  rwa [← sub_eq_add_neg, units_not, Int.cast_neg, difference] at nearest

theorem nearest_mul : Nearest (x * y) (p.units * q.units / oneUnits) := by
  have left_shape := canonical_of_parts? left
  have right_shape := canonical_of_parts? right
  rw [parts?_eq] at left right
  change Nearest (.ofModel (.pack (.mul .binary64 x.toModel.unpack y.toModel.unpack))) _
  generalize x.toModel.unpack = u at left
  generalize y.toModel.unpack = w at right
  cases u with
  | infinity | notANumber => contradiction
  | zero s =>
    cases left
    rw [units_zero, Int.cast_zero, zero_mul, zero_div]
    cases w with
    | infinity | notANumber => contradiction
    | zero | finite => exact nearest_zero _
  | finite s m d pos =>
    cases w with
    | infinity | notANumber => contradiction
    | zero t =>
      cases right
      rw [units_zero, Int.cast_zero, mul_zero, zero_div]
      exact nearest_zero _
    | finite t k e other =>
      cases left
      cases right
      have finer : d + e + 1074 ≤ lastPlace (m * k) (d + e) := by
        have bits := le_log2_mul pos other (n := 52)
        have left_normal := left_shape.normal
        have right_normal := right_shape.normal
        simp only at left_normal right_normal
        unfold lastPlace
        omega
      have product : ((m * k : ℕ) : ℚ) * 2 ^ (d + e + 1074) =
          m * 2 ^ (d + 1074) * (k * 2 ^ (e + 1074)) / 2 ^ (1074 : ℤ) := by
        rw [zpow_add_add, Nat.cast_mul, mul_div_assoc', mul_mul_mul_comm]
      rw [cast_units s m left_shape.least, cast_units t k right_shape.least, cast_oneUnits,
        ← signed_mul, ← product]
      exact nearest_roundWithAccuracy (s * t) (represents_exact (m * k)) finer

theorem nearest_div (divisor : q.units ≠ 0) : Nearest (x / y) (p.units / q.units * oneUnits) := by
  have left_shape := canonical_of_parts? left
  have right_shape := canonical_of_parts? right
  rw [parts?_eq] at left right
  change Nearest (.ofModel (.pack (.div .binary64 x.toModel.unpack y.toModel.unpack))) _
  generalize x.toModel.unpack = u at left
  generalize y.toModel.unpack = w at right
  cases w with
  | infinity | notANumber => contradiction
  | zero t =>
    cases right
    rw [units_zero] at divisor
    contradiction
  | finite t k e other =>
    cases u with
    | infinity | notANumber => contradiction
    | zero s =>
      cases left
      rw [units_zero, Int.cast_zero, zero_div, zero_mul]
      exact nearest_zero _
    | finite s m d pos =>
      cases left
      cases right
      obtain ⟨target, chosen⟩ : ∃ target, min (d - e) (Format.binary64.targetExponent
        (totalExponent m d - totalExponent k e)) = target := ⟨_, rfl⟩
      obtain ⟨shift, amount⟩ : ∃ shift : ℕ, (d - e - target).toNat = shift := ⟨_, rfl⟩
      have exponent : d - e = shift + target := by omega
      have finer := le_lastPlace_div pos other chosen exponent
      rw [cast_units s m left_shape.least, cast_units t k right_shape.least, cast_oneUnits,
        ← signed_div, ← div_shiftLeft exponent]
      change Nearest (.ofModel (.pack (roundWithAccuracy .binary64 (s / t)
        (m <<< (d - e - min (d - e) _).toNat / k) (min (d - e) _)
        (accuracyOfFraction (m <<< (d - e - min (d - e) _).toNat % k) k)))) _
      rw [chosen, amount]
      exact nearest_roundWithAccuracy (s / t) (represents_fraction _ other) finer

end

/-! ### Order -/

namespace Nearest
variable (nearest : Nearest x v)
include nearest

/-- A number that the exact value does not pass is not passed by rounding. -/
theorem extent_le (defined : y.isNaN = false) (short : v ≤ extent y) : extent x ≤ extent y := by
  by_contra above
  have closest := nearest.closest y defined
  rw [abs_of_nonneg (by linarith), abs_of_nonneg (by linarith)] at closest
  linarith

theorem le_extent (defined : y.isNaN = false) (far : extent y ≤ v) : extent y ≤ extent x := by
  by_contra below
  have closest := nearest.closest y defined
  rw [abs_of_nonpos (by linarith), abs_of_nonpos (by linarith)] at closest
  linarith

theorem extent_eq (defined : y.isNaN = false) (exactly : extent y = v) : extent x = extent y :=
  le_antisymm (nearest.extent_le defined exactly.ge) (nearest.le_extent defined exactly.le)

/-- Rounding keeps the order of two values. -/
theorem mono (other : Nearest y w) (less : v < w) : x ≤ y := by
  rw [le_iff_extent nearest.defined other.defined]
  by_contra above
  have left := nearest.closest y other.defined
  have right := other.closest x nearest.defined
  rw [← sq_le_sq] at left right
  nlinarith

end Nearest

theorem Denotes.extent {i : ℤ} (denotes : Denotes x i) : extent x = i * oneUnits := by
  obtain ⟨p, found, units⟩ := denotes
  rw [extent_of_parts? found, units]
  push_cast
  rfl

theorem extent_zero : extent 0 = 0 := by
  rw [denotes_zero.extent, Int.cast_zero, zero_mul]

theorem lt_iff_extent (left : x.isNaN = false) (right : y.isNaN = false) :
    x < y ↔ extent x < extent y := by
  rw [lt_iff_not_le left right, le_iff_extent right left, not_le]

theorem beq_iff_extent (left : x.isNaN = false) (right : y.isNaN = false) :
    (x == y) = true ↔ extent x = extent y := by
  rw [beq_iff_level left right, le_antisymm_iff, le_antisymm_iff, ← le_iff_level left right,
    ← le_iff_level right left, le_iff_extent left right, le_iff_extent right left]

/-- Only finite numbers are short of the limit. -/
theorem exists_parts_of_extent_lt (defined : x.isNaN = false) (low : (-limitUnits : ℚ) < extent x)
    (high : extent x < limitUnits) : ∃ p, parts? x = some p := by
  rcases cases_of_defined defined with found | rfl | rfl
  · exact found
  · exact absurd extent_infinity high.ne
  · exact absurd extent_neg_infinity low.ne'

/-! ### Quotients of whole numbers -/

theorem Denotes.nearest_div {i j : ℤ} (left : Denotes x i) (right : Denotes y j) (divisor : j ≠ 0) :
    Nearest (x / y) (i / j * oneUnits) := by
  obtain ⟨p, found, units⟩ := left
  obtain ⟨q, again, others⟩ := right
  have one : (oneUnits : ℚ) ≠ 0 := Nat.cast_ne_zero.mpr oneUnits_pos.ne'
  have nonzero : q.units ≠ 0 := by
    rw [others]
    exact mul_ne_zero divisor oneUnits_pos'.ne'
  have nearest := Binary64.nearest_div found again nonzero
  rw [units, others] at nearest
  push_cast at nearest
  rwa [mul_div_mul_right _ _ one] at nearest

/-- The number after one. -/
def oneUp : Float := Float.ofBits 0x3FF0000000000001

theorem extent_oneUp : extent oneUp = oneUnits + oneUnits / 2 ^ 52 := by
  have found : parts? oneUp = some ⟨false, 2 ^ 52 + 1, -52⟩ := rfl
  have exponent : ((-52 : ℤ) + 1074).toNat = 1022 := rfl
  have one := oneUnits_eq (T := 1022) (by decide)
  have bits : 1074 - 1022 = 52 := rfl
  rw [bits] at one
  rw [extent_of_parts? found, Parts.units, magnitude, exponent, one]
  generalize 2 ^ 1022 = place
  change (((2 ^ 52 + 1) * place : ℕ) : ℤ) = (_ : ℚ)
  push_cast
  ring

/-- A number that is one greater is so many times greater, though not twice rounded. -/
theorem one_lt_div_of_succ {n : ℕ} (pos : 0 < n) (small : n + 1 < 2 ^ 53) :
    1 < ofNat (n + 1) / ofNat n := by
  have nearest := (denotes_ofNat small).nearest_div (denotes_ofNat (n := n) (by omega)) (by omega)
  have one : extent 1 = oneUnits := by rw [denotes_one.extent, Int.cast_one, one_mul]
  have positive : (0 : ℚ) < oneUnits := Nat.cast_pos.mpr oneUnits_pos
  have size : (0 : ℚ) < n := Nat.cast_pos.mpr pos
  have value : (((n + 1 : ℕ) : ℤ) : ℚ) / ((n : ℕ) : ℤ) * oneUnits = oneUnits + oneUnits / n := by
    push_cast
    field_simp
  have half : (oneUnits : ℚ) / 2 ^ 52 < 2 * (oneUnits / n) := by
    have few : (n : ℚ) < 2 ^ 53 := by exact_mod_cast Nat.lt_of_succ_lt small
    rw [mul_div_assoc', div_lt_div_iff₀ (by positivity) size]
    nlinarith
  have gap : 0 < (oneUnits : ℚ) / 2 ^ 52 := by positivity
  have next := nearest.closest oneUp rfl
  rw [value, extent_oneUp] at next
  rw [lt_iff_extent rfl nearest.defined, one]
  by_contra short
  rw [abs_of_nonpos (by linarith), add_sub_add_left_eq_sub] at next
  have closer : |(oneUnits : ℚ) / 2 ^ 52 - oneUnits / n| < (oneUnits : ℚ) / n := by
    rw [abs_lt]
    constructor <;> linarith
  linarith

end Binning.Binary64
