import Binning.Proofs.Binary64.Monotone
import Binning.Proofs.Binary64.Neighbours

/-! The range of the finite numbers: which operations leave it, and what stays inside. -/
namespace Binning.Binary64
open Float.Model.UnpackedFloat (Sign)

variable {x y z : Float} {p q : Parts} {v w : ℚ}

/-! ### The largest number -/

/-- The largest finite number. -/
def largest : Float := Float.ofBits 0x7FEFFFFFFFFFFFFF

theorem isFinite_of_parts? (found : parts? x = some p) : isFinite x = true :=
  Option.isSome_of_eq_some found

theorem isFinite_iff_of_defined (defined : x.isNaN = false) :
    isFinite x = true ↔ x ≠ infinity ∧ x ≠ -infinity := by
  rcases cases_of_defined defined with ⟨p, found⟩ | rfl | rfl
  · refine iff_of_true (isFinite_of_parts? found) ⟨?_, ?_⟩ <;> rintro rfl <;> contradiction
  · exact iff_of_false (by decide) (fun apart => apart.1 rfl)
  · exact iff_of_false (by decide) (fun apart => apart.2 rfl)

/-- What has a number on either side is finite. -/
theorem isFinite_of_lt_of_lt (below : x < y) (above : y < z) : isFinite y = true := by
  rw [isFinite_iff_of_defined (defined_of_lt below).2]
  constructor <;> rintro rfl
  · exact not_infinity_lt z above
  · exact not_lt_neg_infinity x below

theorem isFinite_of_nonneg_of_lt (nonneg : 0 ≤ x) (above : x < y) : isFinite x = true := by
  rw [isFinite_iff_of_defined (defined_of_lt above).1]
  constructor <;> rintro rfl
  · exact not_infinity_lt y above
  · exact absurd nonneg (by decide)

theorem magnitude_mono {m n : ℕ} {d e : ℤ} (significand : m ≤ n) (exponent : d ≤ e) :
    magnitude m d ≤ magnitude n e :=
  Nat.mul_le_mul significand (Nat.pow_le_pow_right two_pos (by omega))

theorem le_largest (finite : isFinite x = true) : x ≤ largest := by
  obtain ⟨p, found⟩ := Option.isSome_iff_exists.mp finite
  have last : parts? largest = some ⟨false, 2 ^ 53 - 1, 971⟩ := rfl
  have shape := canonical_of_parts? found
  have greatest := shape.greatest
  have significand := shape.significand
  have magnitudes : magnitude p.significand p.exponent ≤ magnitude (2 ^ 53 - 1) 971 :=
    magnitude_mono (by omega) greatest
  rw [le_iff found last]
  change p.withSign _ ≤ ((magnitude (2 ^ 53 - 1) 971 : ℕ) : ℤ)
  generalize magnitude (2 ^ 53 - 1) 971 = most at magnitudes ⊢
  unfold Parts.withSign
  split <;> omega

/-- No number stands between a number and the next. -/
theorem nextUp_le (finite : isFinite x = true) (above : x < y) : nextUp x ≤ y := by
  obtain ⟨p, found⟩ := Option.isSome_iff_exists.mp finite
  have next := (defined_of_lt (lt_nextUp finite)).2
  rcases cases_of_defined (defined_of_lt above).2 with ⟨q, other⟩ | rfl | rfl
  case inr.inl => exact le_infinity_of_defined next
  case inr.inr => exact absurd above (not_lt_neg_infinity x)
  have steps := strictMono_nat_of_lt_succ wordUnits_lt_succ
  have word := units_of_word found
  have other_word := units_of_word other
  have field := field_of_parts? other
  rw [lt_iff found other] at above
  rw [nextUp_eq found]
  split
  · rename_i zero
    have least : parts? (Float.ofBits 1) = some ⟨false, 1, -1074⟩ := rfl
    rw [le_iff least other]
    rwa [zero] at above
  split
  · rename_i below
    obtain ⟨sign, s, counted, units⟩ := exists_parts_ofBits_pred found below
    rw [if_pos (by omega)] at word
    rw [le_iff counted other, units]
    split at other_word
    · have before : y.toBits.toNat - 2 ^ 63 < x.toBits.toNat - 2 ^ 63 := by
        rw [← steps.lt_iff_lt]
        omega
      have closer := steps.monotone (Nat.le_sub_one_of_lt before)
      omega
    · omega
  · obtain ⟨sign, counted⟩ := parts_ofBits_succ found (by omega)
    rw [if_neg (by omega)] at word
    split at other_word
    · omega
    have before : x.toBits.toNat < y.toBits.toNat := by
      rw [← steps.lt_iff_lt]
      omega
    rcases counted with ⟨_, last⟩ | ⟨s, counted, units⟩
    · omega
    · have farther : wordUnits (x.toBits.toNat + 1) ≤ wordUnits y.toBits.toNat :=
        steps.monotone before
      rw [le_iff counted other, units]
      omega

theorem isFinite_nextUp_iff (finite : isFinite x = true) :
    isFinite (nextUp x) = true ↔ x < largest := by
  have above := lt_nextUp finite
  refine ⟨fun next => lt_of_lt_of_le above (le_largest next), fun short => ?_⟩
  rw [isFinite_iff_of_defined (defined_of_lt above).2]
  constructor
  · intro last
    have reached := nextUp_le finite short
    rw [last] at reached
    exact absurd reached (by decide)
  · intro first
    rw [first] at above
    exact not_lt_neg_infinity x above

theorem least_cases (defined : x.isNaN = false) (y : Float) :
    least x y = x ∨ y < x ∧ least x y = y := by
  rw [least, defined]
  split
  · contradiction
  split
  · exact .inr ⟨‹_›, rfl⟩
  · exact .inl rfl

theorem greatest_cases (defined : x.isNaN = false) (y : Float) :
    greatest x y = x ∨ x < y ∧ greatest x y = y := by
  rw [greatest, defined]
  split
  · contradiction
  split
  · exact .inr ⟨‹_›, rfl⟩
  · exact .inl rfl

theorem isFinite_least_iff (finite : isFinite x = true) :
    isFinite (least x y) = true ↔ y ≠ -infinity := by
  have defined := not_isNaN_of_isFinite finite
  have lowest : -infinity < x := by
    obtain ⟨p, found⟩ := Option.isSome_iff_exists.mp finite
    rw [lt_iff_extent rfl defined, extent_neg_infinity, extent_of_parts? found]
    exact (units_lt_limit found).1
  rw [least, defined]
  split
  · contradiction
  split
  · rename_i below
    rw [isFinite_iff_of_defined (defined_of_lt below).1, and_iff_right]
    rintro rfl
    exact not_infinity_lt x below
  · rename_i above
    refine iff_of_true finite ?_
    rintro rfl
    exact above lowest

theorem isFinite_greatest_iff (defined : x.isNaN = false) (low : x ≠ -infinity) :
    isFinite (greatest x y) = true ↔ isFinite x = true ∧ y ≠ infinity := by
  rw [greatest, defined]
  split
  · contradiction
  split
  · rename_i above
    have finite : isFinite x = true := by
      rw [isFinite_iff_of_defined defined]
      refine ⟨?_, low⟩
      rintro rfl
      exact not_infinity_lt y above
    rw [isFinite_iff_of_defined (defined_of_lt above).2, and_iff_right finite, and_iff_left]
    rintro rfl
    exact not_lt_neg_infinity x above
  · rename_i below
    refine ⟨fun finite => ⟨finite, ?_⟩, And.left⟩
    rintro rfl
    obtain ⟨p, found⟩ := Option.isSome_iff_exists.mp finite
    exact below (lt_infinity found)

/-! ### Results that stay inside -/

theorem isFinite_of_extent (low : (-limitUnits : ℚ) < extent x) (high : extent x < limitUnits) :
    isFinite x = true := by
  rw [extent] at low high
  cases found : parts? x with
  | some p => exact isFinite_of_parts? found
  | none =>
    rw [found] at low high
    simp only at low high
    split at low
    · exact low.false.elim
    · rw [if_neg ‹_›] at high
      exact high.false.elim

theorem abs_extent_lt (finite : isFinite x = true) : |extent x| < limitUnits := by
  obtain ⟨p, found⟩ := Option.isSome_iff_exists.mp finite
  rw [extent_of_parts? found, abs_lt]
  exact units_lt_limit found

theorem isFinite_of_abs_extent (short : |extent x| < limitUnits) : isFinite x = true :=
  isFinite_of_extent (abs_lt.mp short).1 (abs_lt.mp short).2

theorem Denotes.isFinite {i : ℤ} (denotes : Denotes x i) : isFinite x = true := by
  obtain ⟨p, found, _⟩ := denotes
  exact isFinite_of_parts? found

/-- Numbers that stand at the same place, not at zero, are the same. -/
theorem eq_of_extent_eq (left : x.isNaN = false) (right : y.isNaN = false)
    (same : extent x = extent y) (nonzero : extent y ≠ 0) : x = y := by
  rcases eq_or_zero_of_beq ((beq_iff_extent left right).mpr same) with equal | ⟨_, zero⟩
  · exact equal
  · exact absurd (extent_of_beq_zero zero) nonzero

section
variable (left : isFinite x = true) (right : isFinite y = true)
include left right

theorem nearest_sum : Nearest (x + y) (extent x + extent y) := by
  obtain ⟨p, found⟩ := Option.isSome_iff_exists.mp left
  obtain ⟨q, again⟩ := Option.isSome_iff_exists.mp right
  rw [extent_of_parts? found, extent_of_parts? again]
  exact nearest_add found again

theorem nearest_difference : Nearest (x - y) (extent x - extent y) := by
  obtain ⟨p, found⟩ := Option.isSome_iff_exists.mp left
  obtain ⟨q, again⟩ := Option.isSome_iff_exists.mp right
  rw [extent_of_parts? found, extent_of_parts? again]
  exact nearest_sub found again

theorem nearest_product : Nearest (x * y) (extent x * extent y / oneUnits) := by
  obtain ⟨p, found⟩ := Option.isSome_iff_exists.mp left
  obtain ⟨q, again⟩ := Option.isSome_iff_exists.mp right
  rw [extent_of_parts? found, extent_of_parts? again]
  exact nearest_mul found again

end

/-- A significand at a place of the range is a number, whichever its last bits are. -/
theorem exists_extent_eq {m T : ℕ} (small : m < 2 ^ 53) (inside : T ≤ 2045) :
    ∃ y : Float, y.isNaN = false ∧ extent y = m * 2 ^ T := by
  obtain ⟨s, free⟩ : ∃ s, min T (52 - m.log2) = s := ⟨_, rfl⟩
  have short : m * 2 ^ s < 2 ^ 53 := by
    have bits : m.log2 < 53 := by
      rcases Nat.eq_zero_or_pos m with rfl | pos
      · decide
      · exact (Nat.log2_lt pos.ne').mpr small
    calc m * 2 ^ s < 2 ^ (m.log2 + 1) * 2 ^ s :=
          Nat.mul_lt_mul_of_pos_right Nat.lt_log2_self (Nat.two_pow_pos s)
      _ = 2 ^ (m.log2 + 1 + s) := (Nat.pow_add ..).symm
      _ ≤ 2 ^ 53 := Nat.pow_le_pow_right two_pos (by omega)
  rcases Nat.eq_zero_or_pos m with rfl | pos
  · refine ⟨0, rfl, ?_⟩
    rw [extent_zero, Nat.cast_zero, zero_mul]
  have normal : T - s ≠ 0 → 2 ^ 52 ≤ m * 2 ^ s := by
    intro some_place
    calc 2 ^ 52 ≤ 2 ^ (m.log2 + s) := Nat.pow_le_pow_right two_pos (by omega)
      _ = 2 ^ m.log2 * 2 ^ s := Nat.pow_add ..
      _ ≤ m * 2 ^ s := Nat.mul_le_mul_right _ (Nat.log2_self_le pos.ne')
  obtain ⟨p, found, units⟩ := parts?_settle .positive (T := T - s) short.le normal (by omega)
  refine ⟨_, defined_of_parts? found, ?_⟩
  have whole : m * 2 ^ s * 2 ^ (T - s) = m * 2 ^ T := by
    rw [mul_assoc, ← pow_add, Nat.add_sub_cancel' (by omega)]
  rw [extent_of_parts? found, units, cast_apply, whole]
  push_cast
  rfl

theorem extent_of_binade {e : ℤ} {T : ℕ} (found : parts? x = some ⟨false, 2 ^ 52, e⟩)
    (place : (e + 1074).toNat = T) : extent x = 2 ^ 52 * 2 ^ T := by
  rw [extent_of_parts? found, Parts.units, magnitude, place]
  change ((2 ^ 52 * 2 ^ T : ℕ) : ℤ) = (_ : ℚ)
  push_cast
  rfl

section
variable {n T : ℕ} (place : T = 1073)
include place

theorem oneUnits_eq_halves : oneUnits = 2 * 2 ^ T := by
  have one : oneUnits = 2 ^ (1074 - T) * 2 ^ T := oneUnits_eq (by omega)
  have bit : 1074 - T = 1 := by omega
  rw [one, bit, pow_one]

theorem extent_half_eq : extent 0.5 = 2 ^ T := by
  obtain ⟨S, last⟩ : ∃ S, S + 52 = T := ⟨1021, place.symm⟩
  have found : parts? 0.5 = some ⟨false, 2 ^ 52, -53⟩ := rfl
  have exponent : ((-53 : ℤ) + 1074).toNat = S := by omega
  rw [extent_of_binade found exponent, ← last]
  ring

theorem extent_ofNat (small : n < 2 ^ 53) : extent (ofNat n) = n * (2 * 2 ^ T) := by
  rw [(denotes_ofNat small).extent, oneUnits_eq_halves place]
  push_cast
  rfl

theorem extent_half_before (sized : 0 < n) (small : n < 2 ^ 52) :
    extent (ofNat n - 0.5) = (2 * n - 1) * 2 ^ T := by
  have whole : Denotes (ofNat n) n := denotes_ofNat (by omega)
  obtain ⟨y, defined, stands⟩ := exists_extent_eq (m := 2 * n - 1) (T := T) (by omega) (by omega)
  have odd : ((2 * n - 1 : ℕ) : ℚ) = 2 * n - 1 := by
    rw [Nat.cast_pred (by omega)]
    push_cast
    rfl
  have finite_half : isFinite 0.5 = true := rfl
  have difference := nearest_difference whole.isFinite finite_half
  rw [odd] at stands
  rw [difference.extent_eq defined, stands]
  rw [stands, extent_ofNat place (by omega), extent_half_eq place]
  ring

end

theorem extent_half : extent 0.5 = oneUnits / 2 := by
  obtain ⟨T, place⟩ : ∃ T, T = 1073 := ⟨_, rfl⟩
  rw [extent_half_eq place, oneUnits_eq_halves place]
  push_cast
  ring

/-- A half less than a count lies in the last of as many steps, half way. -/
theorem half_before {n : ℕ} (sized : 0 < n) (small : n < 2 ^ 52) :
    ofNat n - 0.5 < ofNat n ∧ ¬ ofNat n - 0.5 < 0 ∧ toUnsigned (ofNat n - 0.5) = n - 1 ∧
      ofNat n - 0.5 - ofNat (n - 1) = 0.5 := by
  obtain ⟨T, place⟩ : ∃ T, T = 1073 := ⟨_, rfl⟩
  have scale : (0 : ℚ) < 2 ^ T := by positivity
  have many : (1 : ℚ) ≤ n := by exact_mod_cast sized
  have whole : Denotes (ofNat n) n := denotes_ofNat (by omega)
  have before : Denotes (ofNat (n - 1)) (n - 1 : ℕ) := denotes_ofNat (by omega)
  have exactly := extent_half_before place sized small
  have above : extent (ofNat n - 0.5) < extent (ofNat n) := by
    rw [exactly, extent_ofNat place (by omega)]
    linarith
  have nonneg : 0 ≤ extent (ofNat n - 0.5) := by
    rw [exactly]
    exact mul_nonneg (by linarith) scale.le
  have finite : isFinite (ofNat n - 0.5) = true := by
    have high := (abs_lt.mp (abs_extent_lt whole.isFinite)).2
    exact isFinite_of_abs_extent (by rw [abs_of_nonneg nonneg]; exact above.trans high)
  have defined := not_isNaN_of_isFinite finite
  refine ⟨?_, ?_, ?_, ?_⟩
  · exact (lt_iff_extent defined whole.defined).mpr above
  · rw [lt_iff_extent defined rfl, extent_zero]
    exact not_lt.mpr nonneg
  · obtain ⟨p, found⟩ := Option.isSome_iff_exists.mp finite
    rw [extent_of_parts? found] at exactly nonneg
    have units : p.units = (2 * n - 1) * 2 ^ T := by exact_mod_cast exactly
    have steps : p.units / (oneUnits : ℤ) = (n - 1 : ℕ) := by
      rw [units, oneUnits_eq_halves place, Nat.cast_mul, Nat.cast_pow, Nat.cast_two,
        Int.mul_ediv_mul_of_pos_left _ _ (by positivity)]
      omega
    rw [toUnsigned_eq found (by exact_mod_cast nonneg), steps, Word64.clampUnsigned,
      Word64.maxUnsigned]
    omega
  · have rest := nearest_difference finite before.isFinite
    have stands : extent (ofNat n - 0.5 - ofNat (n - 1)) = extent 0.5 := by
      refine rest.extent_eq rfl ?_
      rw [exactly, extent_ofNat place (by omega), extent_half_eq place, Nat.cast_pred sized]
      ring
    refine eq_of_extent_eq rest.defined rfl stands ?_
    rw [extent_half_eq place]
    exact scale.ne'

/-- An eighth of the limit, the number `2 ^ 1021`. -/
def eighth : ℚ := limitUnits / 8

theorem eighth_pos : 0 < eighth := by
  have limit : (0 : ℚ) < limitUnits := by
    rw [cast_limitUnits (Nat.zero_le _), pow_zero, mul_one]
    positivity
  exact div_pos limit (by norm_num)

theorem limitUnits_eq : (limitUnits : ℚ) = 8 * eighth := by
  rw [eighth, mul_div_cancel₀ _ (by norm_num)]

theorem exists_extent_eighths {k : ℕ} (inside : k < 8) :
    ∃ y : Float, y.isNaN = false ∧ extent y = k * eighth := by
  obtain ⟨T, last⟩ : ∃ T, T = 2045 := ⟨_, rfl⟩
  obtain ⟨y, defined, stands⟩ := exists_extent_eq (m := k * 2 ^ 50) (T := T) (by omega) last.le
  have bits : 2098 - T = 53 := by omega
  refine ⟨y, defined, ?_⟩
  rw [stands, eighth, cast_limitUnits (T := T) (by omega), bits]
  push_cast
  ring

namespace Nearest
variable (nearest : Nearest x v)
include nearest

/-- Rounding does not leave a bound of whole eighths. -/
theorem le_eighths {k : ℕ} (inside : k < 8) (short : v ≤ k * eighth) : extent x ≤ k * eighth := by
  obtain ⟨y, defined, stands⟩ := exists_extent_eighths inside
  rw [← stands] at short ⊢
  exact nearest.extent_le defined short

theorem neg_eighths_le {k : ℕ} (inside : k < 8) (far : -(k * eighth) ≤ v) :
    -(k * eighth) ≤ extent x := by
  have mirrored := nearest.neg.le_eighths inside (neg_le.mp far)
  rw [(extent_neg nearest.defined).2] at mirrored
  exact neg_le.mp mirrored

theorem isFinite_of_eighths {k : ℕ} (inside : k < 8) (low : -(k * eighth) ≤ v)
    (high : v ≤ k * eighth) : isFinite x = true := by
  have pos := eighth_pos
  have short : (k : ℚ) * eighth < 8 * eighth :=
    mul_lt_mul_of_pos_right (by exact_mod_cast inside) pos
  have low := nearest.neg_eighths_le inside low
  have high := nearest.le_eighths inside high
  apply isFinite_of_extent <;> rw [limitUnits_eq] <;> linarith

end Nearest

/-! ### Errors -/

theorem exists_extent_int {j : ℤ} {T : ℕ} (small : |j| ≤ 2 ^ 53) (inside : T ≤ 2044) :
    ∃ y : Float, y.isNaN = false ∧ extent y = j * 2 ^ T := by
  have natural : ∃ y : Float, y.isNaN = false ∧ extent y = (j.natAbs : ℕ) * 2 ^ T := by
    rcases Nat.lt_or_ge j.natAbs (2 ^ 53) with short | most
    · exact exists_extent_eq short (by omega)
    · have same : j.natAbs = 2 ^ 52 * 2 := by
        rw [Int.abs_eq_natAbs] at small
        omega
      obtain ⟨y, defined, stands⟩ :=
        exists_extent_eq (m := 2 ^ 52) (T := T + 1) (by decide) (by omega)
      refine ⟨y, defined, ?_⟩
      rw [stands, same, pow_succ]
      push_cast
      ring
  obtain ⟨y, defined, stands⟩ := natural
  rcases Int.natAbs_eq j with nonneg | neg
  · refine ⟨y, defined, ?_⟩
    rw [stands, nonneg, Int.natAbs_natCast, Int.cast_natCast]
  · obtain ⟨mirrored, opposite⟩ := extent_neg defined
    refine ⟨-y, mirrored, ?_⟩
    rw [opposite, stands, neg, Int.natAbs_neg, Int.natAbs_natCast, Int.cast_neg, Int.cast_natCast,
      neg_mul]

/-- Rounding is off by half a place at most, `T` being the place of the bound's last bit. -/
theorem Nearest.error {T : ℕ} (nearest : Nearest x v) (inside : T ≤ 2044)
    (bound : |v| ≤ 2 ^ 53 * 2 ^ T) : |extent x - v| ≤ 2 ^ T / 2 := by
  have place : (0 : ℚ) < 2 ^ T := by positivity
  have near := abs_sub_round (v / 2 ^ T)
  have small : |round (v / 2 ^ T)| ≤ 2 ^ 53 := by
    have quotient : |v / 2 ^ T| ≤ 2 ^ 53 := by
      rwa [abs_div, abs_of_pos place, div_le_iff₀ place]
    obtain ⟨low, high⟩ := abs_le.mp quotient
    obtain ⟨lower, upper⟩ := abs_le.mp near
    rw [abs_le]
    constructor
    · have above : ((-2 ^ 53 - 1 : ℤ) : ℚ) < round (v / 2 ^ T) := by
        push_cast
        linarith
      have above := Int.cast_lt.mp above
      omega
    · have below : (round (v / 2 ^ T) : ℚ) < ((2 ^ 53 + 1 : ℤ) : ℚ) := by
        push_cast
        linarith
      have below := Int.cast_lt.mp below
      omega
  obtain ⟨y, defined, stands⟩ := exists_extent_int small inside
  calc |extent x - v| ≤ |extent y - v| := nearest.closest y defined
    _ = |v / 2 ^ T - round (v / 2 ^ T)| * 2 ^ T := by
      rw [stands, abs_sub_comm, ← abs_of_pos place, ← abs_mul, abs_of_pos place, sub_mul,
        div_mul_cancel₀ _ place.ne']
    _ ≤ 1 / 2 * 2 ^ T := mul_le_mul_of_nonneg_right near place.le
    _ = 2 ^ T / 2 := one_div_mul_eq_div ..

/-- What is at least the least positive number is not rounded to zero. -/
theorem Nearest.one_le (nearest : Nearest x v) (reached : 1 ≤ v) : 1 ≤ extent x := by
  have least : extent (Float.ofBits 1) = 1 := by
    rw [extent_of_parts? (p := ⟨false, 1, -1074⟩) rfl]
    rfl
  rw [← least] at reached ⊢
  exact nearest.le_extent rfl reached

/-- The difference of two finite numbers is zero only if they are equal. -/
theorem sub_beq_zero_iff (left : isFinite x = true) (right : isFinite y = true) :
    (x - y == 0) = true ↔ (x == y) = true := by
  refine ⟨fun zero => ?_, fun same => sub_beq_zero same left⟩
  obtain ⟨p, found⟩ := Option.isSome_iff_exists.mp left
  obtain ⟨q, again⟩ := Option.isSome_iff_exists.mp right
  have nearest := nearest_sub found again
  have nothing := extent_of_beq_zero zero
  refine beq_of_units found again ?_
  by_contra differ
  rcases Int.lt_or_gt_of_ne differ with less | more
  · have apart : (1 : ℚ) ≤ -(p.units - q.units) := by
      rw [neg_sub, le_sub_iff_add_le]
      exact_mod_cast (by omega : 1 + p.units ≤ q.units)
    have reached := nearest.neg.one_le apart
    rw [(extent_neg nearest.defined).2, nothing] at reached
    norm_num at reached
  · have apart : (1 : ℚ) ≤ p.units - q.units := by
      rw [le_sub_iff_add_le]
      exact_mod_cast (by omega : 1 + q.units ≤ p.units)
    have reached := nearest.one_le apart
    rw [nothing] at reached
    norm_num at reached

theorem exists_infinite_div (s : Sign) (found : parts? y = some q) (divisor : q.units ≠ 0) :
    ∃ t, infinite s / y = infinite t := by
  rw [parts?_eq] at found
  cases shape : y.toModel.unpack with
  | infinity | notANumber =>
    rw [shape] at found
    contradiction
  | zero =>
    rw [shape] at found
    cases found
    exact absurd (units_zero ..) divisor
  | finite t =>
    refine ⟨s / t, ?_⟩
    change Float.ofModel (.pack (.div .binary64 (infinite s).toModel.unpack y.toModel.unpack)) = _
    rw [infinite_eq_pack (s / t), unpack_infinite, shape]
    rfl

/-- A number that is not zero and not infinite divides every number. -/
theorem defined_div (defined : x.isNaN = false) (finite : isFinite y = true)
    (nonzero : ¬ (y == 0) = true) : (x / y).isNaN = false := by
  obtain ⟨q, second⟩ := Option.isSome_iff_exists.mp finite
  have divisor : q.units ≠ 0 := fun zero => nonzero ((beq_zero_iff_units second).mpr zero)
  have unbounded (s : Sign) : (infinite s / y).isNaN = false := by
    obtain ⟨t, quotient⟩ := exists_infinite_div s second divisor
    rw [quotient]
    cases t <;> rfl
  rcases cases_of_defined defined with ⟨p, first⟩ | rfl | rfl
  · exact (nearest_div first second divisor).defined
  · exact unbounded .positive
  · exact unbounded .negative

/-- A result whose exact value is not larger than a number is not larger either. -/
theorem Nearest.abs_le (nearest : Nearest x v) (defined : y.isNaN = false)
    (short : |v| ≤ |extent y|) : |extent x| ≤ |extent y| := by
  obtain ⟨mirrored, opposite⟩ := extent_neg defined
  rcases abs_cases (extent y) with ⟨same, _⟩ | ⟨same, _⟩
  all_goals
    rw [same, abs_le'] at short
    rw [same, abs_le']
  · refine ⟨nearest.extent_le defined short.1, ?_⟩
    have low := nearest.le_extent mirrored (by rw [opposite]; linarith)
    rw [opposite] at low
    linarith
  · have high := nearest.extent_le mirrored (by rw [opposite]; exact short.1)
    have low := nearest.le_extent defined (by linarith)
    rw [opposite] at high
    exact ⟨high, by linarith⟩

theorem Nearest.isFinite_of_abs_le (nearest : Nearest x v) (finite : isFinite y = true)
    (short : |v| ≤ |extent y|) : isFinite x = true :=
  isFinite_of_abs_extent ((nearest.abs_le (not_isNaN_of_isFinite finite) short).trans_lt
    (abs_extent_lt finite))

/-- What is at most one is rounded by half a place of one at most. -/
theorem Nearest.error_of_share (nearest : Nearest x v) (nonneg : 0 ≤ v) (short : v ≤ oneUnits) :
    |extent x / oneUnits - v / oneUnits| ≤ 1 / 2 ^ 54 := by
  obtain ⟨S, place⟩ : ∃ S, S = 1021 := ⟨_, rfl⟩
  have one : oneUnits = 2 ^ (1074 - S) * 2 ^ S := oneUnits_eq (by omega)
  have bits : 1074 - S = 53 := by omega
  rw [bits] at one
  have unit : (oneUnits : ℚ) = 2 ^ 53 * 2 ^ S := by exact_mod_cast one
  have units : (0 : ℚ) < oneUnits := Nat.cast_pos.mpr oneUnits_pos
  have error := nearest.error (T := S) (by omega) (by rwa [abs_of_nonneg nonneg, ← unit])
  rw [← sub_div, abs_div, abs_of_pos units, div_le_iff₀ units]
  refine error.trans (le_of_eq ?_)
  rw [unit]
  ring

/-- What is in the range by a bit is not rounded out of it. -/
theorem Nearest.isFinite_of_bound {T : ℕ} (nearest : Nearest x v) (inside : T ≤ 2044)
    (bound : |v| ≤ 2 ^ 53 * 2 ^ T) : isFinite x = true := by
  obtain ⟨y, defined, stands⟩ := exists_extent_int (j := 2 ^ 53) (T := T) (by decide) inside
  push_cast at stands
  have place : (0 : ℚ) < 2 ^ T := by positivity
  have limit : (2 : ℚ) ^ 53 * 2 ^ T < limitUnits := by
    rw [cast_limitUnits (T := T) (by omega)]
    exact mul_lt_mul_of_pos_right (pow_lt_pow_right₀ one_lt_two (by omega)) place
  refine isFinite_of_abs_extent ((nearest.abs_le defined ?_).trans_lt ?_)
  · rw [stands]
    exact bound.trans (le_abs_self _)
  · rwa [stands, abs_of_nonneg (by positivity)]

/-- A share of a finite number is finite. -/
theorem isFinite_mul (share : isFinite x = true) (low : 0 ≤ extent x) (high : extent x ≤ oneUnits)
    (finite : isFinite y = true) : isFinite (x * y) = true := by
  have one : (0 : ℚ) < oneUnits := Nat.cast_pos.mpr oneUnits_pos
  refine (nearest_product share finite).isFinite_of_abs_le finite ?_
  rw [abs_div, abs_mul, abs_of_nonneg low, abs_of_pos one, div_le_iff₀ one, mul_comm]
  exact mul_le_mul_of_nonneg_left high (abs_nonneg _)

theorem isFinite_of_sub (difference : isFinite (x - y) = true) (right : isFinite y = true) :
    isFinite x = true := by
  obtain ⟨q, found⟩ := Option.isSome_iff_exists.mp right
  have defined := defined_of_sub (not_isNaN_of_isFinite difference)
  rw [isFinite_iff_of_defined defined]
  constructor <;> rintro rfl
  · rw [infinity_sub found] at difference
    contradiction
  · rw [neg_infinity_sub found] at difference
    contradiction

/-- An infinity has no finite quotient. -/
theorem isFinite_infinite_div (s : Sign) (y : Float) : isFinite (infinite s / y) = false := by
  rw [isFinite_eq, unpack_div, unpack_infinite]
  cases y.toModel.unpack with
  | notANumber | infinity =>
    change (partsOf (Float.Model.pack .notANumber).unpack).isSome = false
    rw [unpack_pack_nan]
    rfl
  | zero t | finite t =>
    change (partsOf (Float.Model.pack (.infinity (s / t))).unpack).isSome = false
    rw [unpack_pack_infinity]
    rfl

theorem isFinite_of_div (quotient : isFinite (x / y) = true) : isFinite x = true := by
  have defined := defined_of_div (not_isNaN_of_isFinite quotient)
  rw [isFinite_iff_of_defined defined]
  constructor <;> rintro rfl
  · exact absurd quotient (Bool.eq_false_iff.mp (isFinite_infinite_div .positive y))
  · exact absurd quotient (Bool.eq_false_iff.mp (isFinite_infinite_div .negative y))

/-! ### Half the range -/

/-- The number `2 ^ 1023`. -/
def halfRange : Float := Float.ofBits 0x7FE0000000000000

theorem extent_halfRange : extent halfRange = 4 * eighth := by
  obtain ⟨T, place⟩ : ∃ T, T = 2045 := ⟨_, rfl⟩
  have found : parts? halfRange = some ⟨false, 2 ^ 52, 971⟩ := rfl
  have exponent : ((971 : ℤ) + 1074).toNat = T := place.symm
  have bits : 2098 - T = 53 := by omega
  rw [extent_of_binade found exponent, eighth, cast_limitUnits (T := T) (by omega), bits]
  ring

/-- A number below half the range leaves a place to it. -/
theorem abs_extent_le_of_half {T : ℕ} (place : T = 2044) (finite : isFinite x = true)
    (short : |extent x| < 4 * eighth) : |extent x| ≤ (2 ^ 53 - 1) * 2 ^ T := by
  obtain ⟨p, found⟩ := Option.isSome_iff_exists.mp finite
  have shape := canonical_of_parts? found
  have half : 4 * eighth = 2 ^ 53 * 2 ^ T := by
    have bits : 2098 - T = 54 := by omega
    rw [eighth, cast_limitUnits (T := T) (by omega), bits]
    ring
  have size : |(p.units : ℚ)| = (p.significand * 2 ^ (p.exponent + 1074).toNat : ℕ) := by
    rw [← Int.cast_abs, Int.abs_eq_natAbs, Parts.units, natAbs_withSign, Int.cast_natCast]
    rfl
  rw [extent_of_parts? found, size] at short ⊢
  have significand := shape.significand
  rcases Nat.lt_or_ge T (p.exponent + 1074).toNat with beyond | inside
  · have normal := shape.normal.resolve_right (by omega)
    have large : 2 ^ 52 * 2 ^ (T + 1) ≤ p.significand * 2 ^ (p.exponent + 1074).toNat :=
      Nat.mul_le_mul normal (Nat.pow_le_pow_right two_pos beyond)
    have large : (2 ^ 52 * 2 ^ (T + 1) : ℚ) ≤
        (p.significand * 2 ^ (p.exponent + 1074).toNat : ℕ) := by exact_mod_cast large
    rw [half] at short
    rw [pow_succ 2 T] at large
    linarith
  · have small : p.significand * 2 ^ (p.exponent + 1074).toNat ≤ (2 ^ 53 - 1) * 2 ^ T :=
      Nat.mul_le_mul (by omega) (Nat.pow_le_pow_right two_pos inside)
    have cast : ((2 ^ 53 - 1 : ℕ) : ℚ) = 2 ^ 53 - 1 := by norm_num
    rw [← cast]
    exact_mod_cast small

/-- The difference of two numbers within half the range is finite, and so is what it adds up
to with the second of them. -/
theorem isFinite_sub_of_half (left : isFinite x = true) (right : isFinite y = true)
    (short_left : |extent x| < 4 * eighth) (short_right : |extent y| < 4 * eighth) :
    isFinite (x - y) = true ∧ isFinite (y + (x - y)) = true := by
  obtain ⟨T, place⟩ : ∃ T, T = 2044 := ⟨_, rfl⟩
  have bound_left := abs_extent_le_of_half place left short_left
  have bound_right := abs_extent_le_of_half place right short_right
  obtain ⟨top, defined, stands⟩ := exists_extent_eq (m := 2 ^ 53 - 1) (T := T + 1) (by decide)
    (by omega)
  have cast : ((2 ^ 53 - 1 : ℕ) : ℚ) = 2 ^ 53 - 1 := by norm_num
  have twice : extent top = (2 ^ 53 - 1) * 2 ^ T + (2 ^ 53 - 1) * 2 ^ T := by
    rw [stands, cast]
    ring
  have nonneg : 0 ≤ extent top := by
    rw [stands]
    positivity
  have limit : |extent top| < limitUnits := by
    rw [abs_of_nonneg nonneg, stands, cast, cast_limitUnits (T := T + 1) (by omega)]
    have bits : 2098 - (T + 1) = 53 := by omega
    rw [bits]
    exact mul_lt_mul_of_pos_right (by linarith) (by positivity)
  have finite_top := isFinite_of_abs_extent limit
  have difference := nearest_difference left right
  have span : |extent x - extent y| ≤ |extent top| := by
    rw [abs_of_nonneg nonneg, twice]
    exact (abs_sub _ _).trans (add_le_add bound_left bound_right)
  have finite := difference.isFinite_of_abs_le finite_top span
  refine ⟨finite, (nearest_sum right finite).isFinite_of_abs_le finite_top ?_⟩
  have size := difference.abs_le defined span
  rw [abs_of_nonneg nonneg, twice] at size ⊢
  rw [abs_le] at size bound_left bound_right ⊢
  rcases le_or_gt 0 (extent y) with above | below
  · have short := difference.extent_le (not_isNaN_of_isFinite left) (by linarith)
    constructor <;> linarith
  · have far := difference.le_extent (not_isNaN_of_isFinite left) (by linarith)
    constructor <;> linarith

end Binning.Binary64
