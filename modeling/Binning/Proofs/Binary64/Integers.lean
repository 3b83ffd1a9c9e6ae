import Binning.Proofs.Binary64.Rounding

/-! Whole numbers, signs and integer parts. A word that a significand holds is a
number of its own, no number is below its floor, and the integer part of a
number that is not below zero is the quotient of its units. -/
namespace Binning.Binary64
open Float.Model Float.Model.UnpackedFloat

/-! ### Signs -/

/-- The number is below zero. -/
def below : UnpackedFloat → Bool
  | .finite s .. | .infinity s => s == .negative
  | .zero _ | .notANumber => false

theorem lt_zero_iff (x : Float) : x < 0 ↔ below x.toModel.unpack = true := by
  change (decide (x.toModel.unpack.lt (.zero .positive) = true)) = true ↔ _
  rw [decide_eq_true_iff]
  cases x.toModel.unpack with
  | finite s | infinity s => cases s <;> exact Iff.rfl
  | zero | notANumber => exact Iff.rfl

theorem not_below_unpack (e : BitVec 11) (m : BitVec 52) :
    below (UnpackedFloat.unpack .binary64 (packComponents .binary64 .positive e m)) = false := by
  simp only [UnpackedFloat.unpack, unpackExponent_packComponents, unpackMantissa_packComponents,
    unpackSign_packComponents, Sign.ofBitVec_toBitVec]
  split
  · split <;> rfl
  split
  · split <;> rfl
  · rfl

/-- Packing makes no number negative. -/
theorem not_below_pack {u : UnpackedFloat} (nonneg : below u = false) :
    below (Float.Model.pack u).unpack = false := by
  cases u with
  | notANumber => exact not_below_unpack ..
  | zero s => cases s <;> rfl
  | infinity s =>
    cases s with
    | negative => contradiction
    | positive => exact not_below_unpack ..
  | finite s m e pos =>
    cases s with
    | negative => contradiction
    | positive =>
      change below (UnpackedFloat.unpack .binary64 (UnpackedFloat.pack .binary64 _)) = _
      simp only [UnpackedFloat.pack]
      split
      · exact not_below_unpack ..
      split
      · exact not_below_unpack ..
      · exact not_below_unpack ..

theorem not_below_round (m : Nat) (e : Int) :
    below (roundWithAccuracy .binary64 .positive m e .exact) = false := by
  simp only [roundWithAccuracy]
  split <;> rfl

theorem not_below_mul {u v : UnpackedFloat} (left : below u = false) (right : below v = false) :
    below (u.mul .binary64 v) = false := by
  cases u with
  | notANumber => rfl
  | zero s => cases v <;> rfl
  | infinity s =>
    cases s with
    | negative => contradiction
    | positive =>
      cases v with
      | notANumber | zero => rfl
      | infinity t | finite t => cases t <;> first | contradiction | rfl
  | finite s m d pos =>
    cases s with
    | negative => contradiction
    | positive =>
      cases v with
      | notANumber | zero => rfl
      | infinity t => cases t <;> first | contradiction | rfl
      | finite t k e other =>
        cases t with
        | negative => contradiction
        | positive => exact not_below_round ..

variable {x y : Float} {p q : Parts}

theorem mul_not_lt_zero (left : ¬ x < 0) (right : ¬ y < 0) : ¬ x * y < 0 := by
  rw [lt_zero_iff, Bool.not_eq_true] at *
  exact not_below_pack (not_below_mul left right)

theorem not_lt_zero_of_le (nonneg : 0 ≤ x) : ¬ x < 0 := by
  change (decide (UnpackedFloat.le (.zero .positive) x.toModel.unpack = true)) = true at nonneg
  rw [decide_eq_true_iff] at nonneg
  rw [lt_zero_iff]
  cases shape : x.toModel.unpack with
  | zero | notANumber => exact Bool.false_ne_true
  | finite s | infinity s =>
    rw [shape] at nonneg
    cases s with
    | negative => contradiction
    | positive => exact Bool.false_ne_true

theorem lt_zero_iff_units (found : parts? x = some p) : x < 0 ↔ p.units < 0 :=
  lt_iff found (parts?_pack_zero .positive)

theorem Reaches.not_lt_zero {n : Nat} (reaches : Reaches x n) : ¬ x < 0 := by
  rcases reaches with rfl | ⟨p, found, units⟩
  · rw [lt_zero_iff, infinity_eq_pack, Bool.not_eq_true]
    exact not_below_pack rfl
  · rw [lt_zero_iff_units found]
    omega

/-- What has no parts and is not below zero is infinite, or no number. -/
theorem eq_infinity_or_isNaN (unbounded : parts? x = none) (nonneg : ¬ x < 0) :
    x = infinity ∨ x.isNaN = true := by
  rw [parts?_eq] at unbounded
  rw [lt_zero_iff, Bool.not_eq_true] at nonneg
  cases shape : x.toModel.unpack with
  | zero | finite => rw [shape] at unbounded; contradiction
  | notANumber =>
    right
    change x.toModel.unpack.isNaN = true
    rw [shape]
    rfl
  | infinity s =>
    rw [shape] at nonneg
    cases s with
    | negative => contradiction
    | positive =>
      exact .inl (eq_of_unpack_eq shape)

/-! ### Words -/

theorem one_eq_ofNat : (1 : Float) = ofNat 1 := rfl

theorem ofNat_eq_round {n : Nat} (pos : 0 < n) (word : n < 2 ^ 64) :
    ofNat n =
      .ofModel (.pack (UnpackedFloat.round .binary64 .positive n ((1074 : Nat) - 1074))) := by
  have same : n.toUInt64.toNat = n := Nat.mod_eq_of_lt word
  change Float.ofModel
    (.pack (UnpackedFloat.normalize .binary64 (n.toUInt64.toNat : Int) 0 .positive)) = _
  rw [UnpackedFloat.normalize, same, compare_gt_iff_gt.mpr (Int.natCast_pos.mpr pos)]
  rfl

/-- The number nearest to a word, as so many of its last place. -/
theorem parts?_ofNat_of_word {n : Nat} (pos : 0 < n) (word : n < 2 ^ 64) :
    ∃ r p, parts? (ofNat n) = some p ∧ p.units = (r * 2 ^ place n 1074 : Nat) ∧
      r ≤ n * oneUnits / 2 ^ place n 1074 + 1 ∧
      (place n 1074 ≤ 1074 → r = n * 2 ^ (1074 - place n 1074)) := by
  have log : n.log2 < 64 := (Nat.log2_lt pos.ne').mpr word
  obtain ⟨r, _, near, high, normal, kept, rounded⟩ := round_eq .positive (E := 1074) pos
  rw [ofNat_eq_round pos word, rounded]
  rcases settle_or_infinite high normal with ⟨_, beyond⟩ | ⟨p, found, units⟩
  · unfold place at beyond
    omega
  · refine ⟨r, p, found, units, ?_, kept⟩
    unfold oneUnits
    exact near

/-- A whole number of no more bits than a significand has is itself a number. -/
theorem parts?_ofNat {n : Nat} (small : n < 2 ^ 53) :
    ∃ p, parts? (ofNat n) = some p ∧ p.units = (n * oneUnits : Nat) := by
  rcases Nat.eq_zero_or_pos n with rfl | pos
  · exact ⟨_, parts?_pack_zero .positive, by rw [units_zero, Nat.zero_mul]; rfl⟩
  · have inside := place_le_of_lt (E := 1074) small
    obtain ⟨r, p, found, units, _, kept⟩ := parts?_ofNat_of_word pos (by omega)
    refine ⟨p, found, ?_⟩
    rw [units, kept inside, oneUnits_eq inside, Nat.mul_assoc]

theorem parts?_ofNat_of_le {n : Nat} (small : n ≤ 2 ^ 53) :
    ∃ p, parts? (ofNat n) = some p ∧ p.units = (n * oneUnits : Nat) := by
  rcases Nat.lt_or_eq_of_le small with below | rfl
  · exact parts?_ofNat below
  · have found : parts? (ofNat (2 ^ 53)) = some ⟨false, 2 ^ 52, 1⟩ := rfl
    have size : magnitude (2 ^ 52) 1 = 2 ^ 53 * oneUnits := by
      have exponent : ((1 : Int) + 1074).toNat = 1075 := rfl
      rw [magnitude, exponent, two_pow_eq (T := 1075) (by decide), ← Nat.mul_assoc, ← Nat.pow_add]
    exact ⟨_, found, congrArg Int.ofNat size⟩

/-- The number nearest to a word is not above the numbers that are larger than the word. -/
theorem ofNat_le {n : Nat} (pos : 0 < n) (word : n < 2 ^ 64) (found : parts? x = some p)
    (above : (n * oneUnits : Nat) < p.units) : ofNat n ≤ x := by
  obtain ⟨r, q, nearest, units, near, _⟩ := parts?_ofNat_of_word pos word
  rw [le_iff nearest found, units]
  have shape := canonical_of_parts? found
  have positive : p.units = (magnitude p.significand p.exponent : Nat) := by
    unfold Parts.units Parts.withSign at *
    split
    · rename_i negative
      rw [if_pos negative] at above
      omega
    · rfl
  rw [positive] at above ⊢
  unfold oneUnits at near above
  exact Int.ofNat_le.mpr (rounded_le pos near shape.significand (Int.ofNat_lt.mp above))

theorem ofNat_not_lt_zero (n : Nat) : ¬ ofNat n < 0 := by
  rw [lt_zero_iff, Bool.not_eq_true]
  apply not_below_pack
  change below (UnpackedFloat.normalize .binary64 (n.toUInt64.toNat : Int) 0 .positive) = _
  unfold UnpackedFloat.normalize
  split
  · rename_i negative
    have := compare_lt_iff_lt.mp negative
    omega
  · rfl
  · exact not_below_round ..

theorem parts?_neg (found : parts? x = some p) :
    parts? (-x) = some { p with negative := !p.negative } := by
  have shape := canonical_of_parts? found
  rw [parts?_eq] at found
  exact parts?_pack_of_canonical (partsOf_neg found) shape

theorem parts?_ofInt {i : Int} (low : -2 ^ 53 < i) (high : i < 2 ^ 53) :
    ∃ p, parts? (ofInt i) = some p ∧ p.units = i * oneUnits := by
  unfold ofInt
  split
  · rename_i nonneg
    obtain ⟨p, found, units⟩ := parts?_ofNat (n := i.toNat) (by omega)
    refine ⟨p, found, ?_⟩
    rw [units, Nat.cast_mul, Int.toNat_of_nonneg nonneg]
  · rename_i negative
    obtain ⟨p, found, units⟩ := parts?_ofNat (n := (-i).toNat) (by omega)
    refine ⟨_, parts?_neg found, ?_⟩
    rw [units_not, units, Nat.cast_mul, Int.toNat_of_nonneg (by omega), Int.neg_mul, Int.neg_neg]

/-! ### Integer parts -/

theorem withSign_shiftLeft (p : Parts) (m k : Nat) :
    p.withSign (m <<< k) = p.withSign m * 2 ^ k := by
  simp only [Parts.withSign, Nat.shiftLeft_eq]
  split <;> push_cast <;> ring

theorem units_eq (p : Parts) :
    p.units = p.withSign p.significand * 2 ^ (p.exponent + 1074).toNat := by
  rw [← withSign_shiftLeft, Nat.shiftLeft_eq]
  rfl

theorem exponent_neg_of_not_whole {p : Parts} (fraction : p.isWhole = false) : p.exponent < 0 := by
  by_contra nonneg
  have places : (-p.exponent).toNat = 0 := by omega
  have whole : p.isWhole = true := by
    rw [Parts.isWhole, places, Nat.shiftLeft_zero, Nat.mod_one]
    rfl
  rw [whole] at fraction
  contradiction

theorem floor_eq_ediv {p : Parts} (shape : Canonical p.significand p.exponent)
    (fraction : p.isWhole = false) : p.floor = p.units / oneUnits := by
  have negative := exponent_neg_of_not_whole fraction
  have least := shape.least
  obtain ⟨k, exponent⟩ : ∃ k : Nat, p.exponent = -k := ⟨(-p.exponent).toNat, by omega⟩
  have left : p.exponent.toNat = 0 := by omega
  have right : (-p.exponent).toNat = k := by omega
  have scale : (p.exponent + 1074).toNat = 1074 - k := by omega
  rw [units_eq, scale, oneUnits_eq (T := k) (by omega)]
  rw [Parts.floor, left, right, Nat.shiftLeft_zero, Int.shiftRight_eq_div_pow]
  push_cast
  rw [Int.mul_comm _ (2 ^ (1074 - k)), Int.mul_ediv_mul_of_pos _ _ (by positivity)]

theorem floor_mul_le {p : Parts} (shape : Canonical p.significand p.exponent)
    (fraction : p.isWhole = false) : p.floor * oneUnits ≤ p.units := by
  rw [floor_eq_ediv shape fraction]
  exact Int.ediv_mul_le _ (Int.natCast_pos.mpr oneUnits_pos).ne'

theorem withSign_bounds (p : Parts) {m n : Nat} (small : m < n) :
    -n < p.withSign m ∧ p.withSign m < n := by
  unfold Parts.withSign
  split <;> omega

theorem floor_bounds {p : Parts} (shape : Canonical p.significand p.exponent)
    (fraction : p.isWhole = false) : -2 ^ 53 < p.floor ∧ p.floor < 2 ^ 53 := by
  have negative := exponent_neg_of_not_whole fraction
  obtain ⟨low, high⟩ := withSign_bounds p shape.significand
  have left : p.exponent.toNat = 0 := by omega
  rw [Parts.floor, left, Nat.shiftLeft_zero, Int.shiftRight_eq_div_pow]
  have divisor : 0 < 2 ^ (-p.exponent).toNat := Nat.two_pow_pos _
  generalize 2 ^ (-p.exponent).toNat = d at divisor
  push_cast at low high
  constructor
  · apply Int.lt_of_lt_of_le (Int.lt_add_one_of_le (Int.le_refl _))
    apply Int.le_ediv_of_mul_le (by omega)
    nlinarith
  · apply Int.ediv_lt_of_lt_mul (by omega)
    nlinarith

/-- What is left of a number above its floor. -/
theorem sub_floor_not_lt_zero (finite : isFinite x = true) : ¬ x - floor x < 0 := by
  obtain ⟨p, found⟩ := Option.isSome_iff_exists.mp finite
  have reaches : Reaches (x - floor x) 0 := by
    rw [floor, found]
    simp only
    split
    · apply reaches_sub found found (Nat.zero_le _)
      rw [Nat.zero_mul, Int.sub_self]
      exact Int.le_refl _
    · rename_i fraction
      rw [Bool.not_eq_true] at fraction
      have shape := canonical_of_parts? found
      obtain ⟨low, high⟩ := floor_bounds shape fraction
      obtain ⟨q, whole, units⟩ := parts?_ofInt low high
      apply reaches_sub found whole (Nat.zero_le _)
      rw [Nat.zero_mul, units]
      exact Int.sub_nonneg_of_le (floor_mul_le shape fraction)
  exact reaches.not_lt_zero

theorem magnitude_div (m : Nat) {e : Int} (least : -1074 ≤ e) :
    magnitude m e / oneUnits = m <<< e.toNat >>> (-e).toNat := by
  have scale : (e + 1074).toNat = e.toNat + (1074 - (-e).toNat) := by omega
  have inside : (-e).toNat ≤ 1074 := by omega
  rw [magnitude, scale, oneUnits_eq inside, Nat.shiftLeft_eq, Nat.shiftRight_eq_div_pow,
    Nat.pow_add, ← Nat.mul_assoc, Nat.mul_comm (2 ^ (1074 - _))]
  exact Nat.mul_div_mul_right _ _ (Nat.two_pow_pos _)

/-- The integer part of a number that is not below zero. -/
theorem truncate_eq_ediv (found : parts? x = some p) (nonneg : 0 ≤ p.units) :
    p.truncate = p.units / oneUnits := by
  have least := (canonical_of_parts? found).least
  have whole := magnitude_div p.significand least
  unfold Parts.truncate Parts.units at *
  rw [← whole]
  unfold Parts.withSign at *
  split
  · rename_i negative
    rw [if_pos negative] at nonneg
    have nothing : magnitude p.significand p.exponent = 0 := by omega
    rw [nothing, Nat.zero_div, Nat.cast_zero, Int.neg_zero, Int.zero_ediv]
  · exact Int.natCast_ediv ..

theorem toSigned_eq (found : parts? x = some p) (nonneg : 0 ≤ p.units) :
    toSigned x = Word64.clampSigned (p.units / oneUnits) := by
  rw [toSigned, found]
  exact congrArg Word64.clampSigned (truncate_eq_ediv found nonneg)

theorem toUnsigned_eq (found : parts? x = some p) (nonneg : 0 ≤ p.units) :
    toUnsigned x = Word64.clampUnsigned (p.units / oneUnits) := by
  rw [toUnsigned, found]
  exact congrArg Word64.clampUnsigned (truncate_eq_ediv found nonneg)

theorem toSigned_infinity : toSigned infinity = Word64.maxSigned := rfl

theorem toSigned_eq_zero (unbounded : parts? x = none) (nan : x.isNaN = true) : toSigned x = 0 := by
  rw [toSigned, unbounded]
  simp only [nan, if_true]

theorem toSigned_nonneg (nonneg : ¬ x < 0) : 0 ≤ toSigned x := by
  cases found : parts? x with
  | none =>
    rcases eq_infinity_or_isNaN found nonneg with rfl | nan
    · rw [toSigned_infinity]
      decide
    · rw [toSigned_eq_zero found nan]
  | some p =>
    rw [lt_zero_iff_units found, Int.not_lt] at nonneg
    have whole := Int.ediv_nonneg nonneg (Int.natCast_nonneg oneUnits)
    rw [toSigned_eq found nonneg, Word64.clampSigned, Word64.minSigned, Word64.maxSigned]
    omega

theorem unpack_infinity : infinity.toModel.unpack = .infinity .positive := rfl

theorem compare_infinity (found : parts? x = some p) :
    x.toModel.unpack.compare (.infinity .positive) = some .lt := by
  rw [parts?_eq] at found
  cases shape : x.toModel.unpack with
  | infinity | notANumber => rw [shape] at found; contradiction
  | zero => rfl
  | finite s => cases s <;> rfl

theorem lt_infinity (found : parts? x = some p) : x < infinity := by
  change (decide (x.toModel.unpack.lt infinity.toModel.unpack = true)) = true
  rw [decide_eq_true_iff, unpack_infinity, UnpackedFloat.lt, compare_infinity found]
  rfl

theorem le_infinity (found : parts? x = some p) : x ≤ infinity := by
  change (decide (x.toModel.unpack.le infinity.toModel.unpack = true)) = true
  rw [decide_eq_true_iff, unpack_infinity, UnpackedFloat.le, compare_infinity found]
  rfl

theorem eq_infinity_of_le (found : parts? x = some p) (unbounded : parts? y = none) (le : x ≤ y) :
    y = infinity := by
  change (decide (x.toModel.unpack.le y.toModel.unpack = true)) = true at le
  rw [decide_eq_true_iff] at le
  rw [parts?_eq] at found unbounded
  generalize x.toModel.unpack = u at found le
  cases right : y.toModel.unpack with
  | zero | finite =>
    rw [right] at unbounded
    contradiction
  | notANumber =>
    rw [right] at le
    cases u <;> contradiction
  | infinity t =>
    cases t with
    | positive => exact eq_of_unpack_eq right
    | negative =>
      rw [right] at le
      cases u with
      | infinity | notANumber | zero => contradiction
      | finite s => cases s <;> contradiction

theorem infinity_add (found : parts? x = some p) : infinity + x = infinity := by
  rw [parts?_eq] at found
  rw [add_eq_pack, unpack_infinity, infinity_eq_pack]
  cases shape : x.toModel.unpack with
  | infinity | notANumber => rw [shape] at found; contradiction
  | zero | finite => rfl

theorem infinity_sub (found : parts? x = some p) : infinity - x = infinity := by
  change Float.ofModel (.pack (.sub .binary64 infinity.toModel.unpack x.toModel.unpack)) = infinity
  rw [parts?_eq] at found
  rw [unpack_infinity, infinity_eq_pack]
  cases shape : x.toModel.unpack with
  | infinity | notANumber => rw [shape] at found; contradiction
  | zero | finite => rfl

theorem Reaches.add_one {n : Nat} (small : n < 2 ^ 53) (reaches : Reaches x n) :
    Reaches (x + 1) (n + 1) := by
  obtain ⟨o, one, one_units⟩ := parts?_ofNat (n := 1) (by decide)
  rw [← one_eq_ofNat] at one
  rcases reaches with rfl | ⟨p, found, units⟩
  · exact .inl (infinity_add one)
  · apply reaches_add found one small
    push_cast at units one_units ⊢
    rw [one_units]
    linarith

/-- The bins that are added up to a number have its bin among them. -/
theorem toSigned_lt_add {n limit : Nat} (small : n ≤ 2 ^ 53) (modest : limit < 2 ^ 53)
    (beyond : ofNat n ≤ x) (within : ¬ ofNat limit < x - ofNat n + 1) :
    toSigned x < n + toSigned (x - ofNat n + 1) := by
  obtain ⟨q, whole, units⟩ := parts?_ofNat_of_le small
  obtain ⟨l, last, last_units⟩ := parts?_ofNat modest
  have scale : (0 : Int) < oneUnits := Int.natCast_pos.mpr oneUnits_pos
  cases found : parts? x with
  | none =>
    obtain ⟨o, one, _⟩ := parts?_ofNat (n := 1) (by decide)
    rw [← one_eq_ofNat] at one
    rw [eq_infinity_of_le whole found beyond, infinity_sub whole, infinity_add one] at within
    exact absurd (lt_infinity last) within
  | some p =>
    rw [le_iff whole found, units] at beyond
    -- the bins that are added, or the limit if they are more
    obtain ⟨k, part⟩ : ∃ k : Nat, p.units / oneUnits = n + k := by
      have reached : (n : Int) ≤ p.units / oneUnits := by
        apply Int.le_ediv_of_mul_le scale
        exact_mod_cast beyond
      exact ⟨(p.units / oneUnits - n).toNat, by omega⟩
    have bottom : (n + k : Int) * oneUnits ≤ p.units := part ▸ Int.ediv_mul_le _ scale.ne'
    have reaches : Reaches (x - ofNat n) (min k limit) := by
      apply reaches_sub found whole (by omega)
      rw [units]
      push_cast
      have : (min k limit : Int) * oneUnits ≤ k * oneUnits :=
        Int.mul_le_mul_of_nonneg_right (Int.min_le_left ..) scale.le
      linarith
    rcases reaches.add_one (by omega) with large | ⟨r, sum, sum_units⟩
    · rw [large] at within
      exact absurd (lt_infinity last) within
    · rw [lt_iff last sum, last_units, Int.not_lt] at within
      have short : min k limit + 1 ≤ limit := by
        apply Nat.le_of_mul_le_mul_right _ oneUnits_pos
        exact_mod_cast Int.le_trans sum_units within
      have all : min k limit = k := by omega
      rw [all] at sum_units short
      have nonneg : 0 ≤ p.units := by
        refine Int.le_trans ?_ beyond
        positivity
      have sum_nonneg : 0 ≤ r.units := by
        refine Int.le_trans ?_ sum_units
        positivity
      have reached : (k + 1 : Int) ≤ r.units / oneUnits := by
        apply Int.le_ediv_of_mul_le scale
        exact_mod_cast sum_units
      rw [toSigned_eq found nonneg, toSigned_eq sum sum_nonneg, part]
      unfold Word64.clampSigned Word64.minSigned Word64.maxSigned
      omega

end Binning.Binary64
