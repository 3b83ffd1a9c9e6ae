import Binning.Proofs.Binary64.Nearest

/-! Operations that keep the order. A sum with a number and a product with a positive one
are in the order of what is added or multiplied, a quotient by a positive number has the
side of zero of its dividend, and integers have their order as numbers, however all these
are rounded. The infinities are ends of the line, and what has become NaN is not less than
anything. -/
namespace Binning.Binary64
open Float.Model Float.Model.UnpackedFloat

variable {x y z : Float} {p q r : Parts} {v w : ℚ} {i j k : ℤ}

theorem not_lt_neg_infinity (x : Float) : ¬ x < -infinity := by
  intro below
  obtain ⟨defined, _⟩ := defined_of_lt below
  rw [lt_iff_not_le defined rfl] at below
  exact below (neg_infinity_le defined)

theorem not_infinity_lt (x : Float) : ¬ infinity < x := by
  intro above
  obtain ⟨_, defined⟩ := defined_of_lt above
  rw [lt_iff_not_le rfl defined] at above
  exact above (le_infinity_of_defined defined)

theorem le_of_not_lt (left : x.isNaN = false) (right : y.isNaN = false) (order : ¬ y < x) :
    x ≤ y := by
  rwa [lt_iff_not_le right left, not_not] at order

theorem not_lt_of_le (order : x ≤ y) : ¬ y < x := by
  obtain ⟨left, right⟩ := defined_of_le order
  rwa [lt_iff_not_le right left, not_not]

/-! ### Signs -/

/-- The infinity of a sign. -/
def infinite : Sign → Float
  | .positive => infinity
  | .negative => -infinity

theorem unpack_infinite (s : Sign) : (infinite s).toModel.unpack = .infinity s := by
  cases s with
  | positive => exact unpack_infinity
  | negative => exact unpack_neg_infinity

theorem infinite_eq_pack (s : Sign) : infinite s = .ofModel (.pack (.infinity s)) := by
  cases s <;> rfl

/-- A number that has the sign and is not zero. -/
def Sided (s : Sign) (x : Float) : Prop :=
  x.toModel.unpack = .infinity s ∨ ∃ m e positive, x.toModel.unpack = .finite s m e positive

theorem sided_of_pos (pos : 0 < x) : Sided .positive x := by
  change decide (UnpackedFloat.lt (0 : Float).toModel.unpack x.toModel.unpack = true) = true at pos
  rw [decide_eq_true_iff, unpack_zero] at pos
  cases shape : x.toModel.unpack with
  | notANumber | zero =>
    rw [shape] at pos
    contradiction
  | infinity s =>
    rw [shape] at pos
    cases s with
    | positive => exact .inl shape
    | negative => contradiction
  | finite s m e positive =>
    rw [shape] at pos
    cases s with
    | positive => exact .inr ⟨m, e, positive, shape⟩
    | negative => contradiction

theorem sided_of_neg (neg : x < 0) : Sided .negative x := by
  rw [lt_zero_iff] at neg
  cases shape : x.toModel.unpack with
  | notANumber | zero =>
    rw [shape] at neg
    contradiction
  | infinity s =>
    rw [shape] at neg
    cases s with
    | positive => contradiction
    | negative => exact .inl shape
  | finite s m e positive =>
    rw [shape] at neg
    cases s with
    | positive => contradiction
    | negative => exact .inr ⟨m, e, positive, shape⟩

/-- A number is on one side of zero, or it is zero. -/
theorem sign_cases (defined : x.isNaN = false) : x < 0 ∨ (x == 0) = true ∨ 0 < x := by
  rw [lt_iff_extent defined rfl, beq_iff_extent defined rfl, lt_iff_extent rfl defined]
  exact lt_trichotomy _ _

theorem pos_of_not_neg (defined : x.isNaN = false) (nonneg : ¬ x < 0)
    (nonzero : ¬ (x == 0) = true) : 0 < x :=
  ((sign_cases defined).resolve_left nonneg).resolve_left nonzero

theorem units_pos (found : parts? x = some p) (pos : 0 < x) : 0 < p.units := by
  rw [lt_iff_extent rfl (defined_of_lt pos).2, extent_zero, extent_of_parts? found] at pos
  exact Int.cast_pos.mp pos

theorem units_nonpos (found : parts? x = some p) (nonpos : ¬ 0 < x) : p.units ≤ 0 := by
  rw [lt_iff_extent rfl (defined_of_parts? found), extent_zero, extent_of_parts? found,
    not_lt] at nonpos
  exact Int.cast_nonpos.mp nonpos

theorem lt_of_lt_of_beq (below : x < y) (same : (y == z) = true) : x < z := by
  obtain ⟨left, middle⟩ := defined_of_lt below
  have right := not_isNaN_of_beq (beq_symm same)
  rw [beq_iff_extent middle right] at same
  rwa [lt_iff_extent left middle, same, ← lt_iff_extent left right] at below

theorem denotes_zero_of_beq (zero : (x == 0) = true) : Denotes x 0 := by
  obtain ⟨s, shape⟩ := beq_zero_iff.mp zero
  refine ⟨_, by rw [parts?_eq, shape]; rfl, ?_⟩
  rw [units_zero, Int.zero_mul]

/-! ### Infinities -/

theorem infinite_mul (s : Sign) {t : Sign} (sided : Sided t x) :
    infinite s * x = infinite (s * t) := by
  rw [infinite_eq_pack (s * t)]
  change Float.ofModel (.pack (.mul .binary64 (infinite s).toModel.unpack x.toModel.unpack)) = _
  rw [unpack_infinite]
  rcases sided with shape | ⟨m, e, positive, shape⟩ <;> rw [shape] <;> rfl

theorem mul_infinite {s : Sign} (sided : Sided s x) (t : Sign) :
    x * infinite t = infinite (s * t) := by
  rw [infinite_eq_pack (s * t)]
  change Float.ofModel (.pack (.mul .binary64 x.toModel.unpack (infinite t).toModel.unpack)) = _
  rw [unpack_infinite]
  rcases sided with shape | ⟨m, e, positive, shape⟩ <;> rw [shape] <;> rfl

theorem add_infinite (found : parts? x = some p) (s : Sign) : x + infinite s = infinite s := by
  rw [parts?_eq] at found
  rw [add_eq_pack, unpack_infinite, infinite_eq_pack]
  cases shape : x.toModel.unpack with
  | infinity | notANumber =>
    rw [shape] at found
    contradiction
  | zero | finite => rfl

/-! ### What becomes NaN -/

theorem isNaN_sub_left (nan : x.isNaN = true) (y : Float) : (x - y).isNaN = true := by
  rw [isNaN_iff] at *
  rw [unpack_sub, nan]
  exact unpack_pack_nan

theorem isNaN_div_left (nan : x.isNaN = true) (y : Float) : (x / y).isNaN = true := by
  rw [isNaN_iff] at *
  rw [unpack_div, nan, div_of_left_nan]
  exact unpack_pack_nan

theorem defined_of_add (defined : (x + y).isNaN = false) : y.isNaN = false := by
  rw [Bool.eq_false_iff] at *
  exact mt (isNaN_add_right x) defined

theorem defined_of_sub (defined : (x - y).isNaN = false) : x.isNaN = false := by
  rw [Bool.eq_false_iff] at *
  exact mt (isNaN_sub_left · y) defined

theorem defined_of_div (defined : (x / y).isNaN = false) : x.isNaN = false := by
  rw [Bool.eq_false_iff] at *
  exact mt (isNaN_div_left · y) defined

/-! ### Sums -/

/-- Values in order are rounded in order, if equal ones are rounded alike. -/
theorem Nearest.le (left : Nearest x v) (right : Nearest y w) (order : v ≤ w)
    (alike : v = w → extent x = extent y) : x ≤ y := by
  rcases order.lt_or_eq with less | same
  · exact left.mono right less
  · exact (le_iff_extent left.defined right.defined).mpr (alike same).le

theorem beq_of_units (left : parts? x = some p) (right : parts? y = some q)
    (same : p.units = q.units) : (x == y) = true := by
  rw [beq_iff_extent (defined_of_parts? left) (defined_of_parts? right), extent_of_parts? left,
    extent_of_parts? right, same]

theorem extent_of_beq_zero (zero : (x == 0) = true) : extent x = 0 := by
  rwa [beq_iff_extent (not_isNaN_of_beq zero) rfl, extent_zero] at zero

theorem add_le_add_of_parts (found : parts? x = some p) (first : parts? y = some q)
    (second : parts? z = some r) (order : y ≤ z) : x + y ≤ x + z := by
  have left := nearest_add found first
  have right := nearest_add found second
  rw [le_iff first second] at order
  refine left.le right (add_le_add_right (Int.cast_le.mpr order) _) fun same => ?_
  have units : q.units = r.units := Int.cast_injective (add_left_cancel same)
  rcases eq_or_zero_of_beq (beq_of_units first second units) with rfl | ⟨none, also⟩
  · rfl
  · have defined := defined_of_parts? found
    have exactly (w : ℚ) (zero : w = 0) : extent x = p.units + w := by
      rw [extent_of_parts? found, zero, add_zero]
    have nothing := extent_of_beq_zero none
    have neither := extent_of_beq_zero also
    rw [extent_of_parts? first] at nothing
    rw [extent_of_parts? second] at neither
    rw [left.extent_eq defined (exactly _ nothing), right.extent_eq defined (exactly _ neither)]

/-- Adding to a number keeps the order. -/
theorem not_add_lt_add (found : parts? x = some p) (order : ¬ z < y) : ¬ x + z < x + y := by
  intro reversed
  obtain ⟨upper, lower⟩ := defined_of_lt reversed
  have left := defined_of_add lower
  have right := defined_of_add upper
  have order := le_of_not_lt left right order
  rcases cases_of_defined left with ⟨q, first⟩ | rfl | rfl
  · rcases cases_of_defined right with ⟨r, second⟩ | rfl | rfl
    · exact not_lt_of_le (add_le_add_of_parts found first second order) reversed
    · have sum : x + infinity = infinity := add_infinite found .positive
      rw [sum] at reversed
      exact not_infinity_lt _ reversed
    · rw [le_iff_extent left rfl, extent_of_parts? first, extent_neg_infinity] at order
      exact order.not_gt (units_lt_limit first).1
  · rw [(infinity_le_iff right).mp order] at reversed
    exact lt_irrefl _ reversed
  · have sum : x + -infinity = -infinity := add_infinite found .negative
    rw [sum] at reversed
    exact not_lt_neg_infinity _ reversed

/-! ### Products and quotients -/

theorem mul_le_mul_of_parts (left : parts? x = some p) (right : parts? y = some q)
    (found : parts? z = some r) (pos : 0 < r.units) (order : x ≤ y) : x * z ≤ y * z := by
  have first := nearest_mul left found
  have second := nearest_mul right found
  have factor : (0 : ℚ) < r.units := Int.cast_pos.mpr pos
  have one : (0 : ℚ) < oneUnits := Nat.cast_pos.mpr oneUnits_pos
  rw [le_iff left right] at order
  refine first.le second ?_ fun same => ?_
  · exact div_le_div_of_nonneg_right
      (mul_le_mul_of_nonneg_right (Int.cast_le.mpr order) factor.le) one.le
  · have units : p.units = q.units := by
      have products := (div_left_inj' one.ne').mp same
      exact Int.cast_injective (mul_right_cancel₀ factor.ne' products)
    rcases eq_or_zero_of_beq (beq_of_units left right units) with rfl | ⟨none, also⟩
    · rfl
    · have finite := Option.isSome_of_eq_some found
      rw [extent_of_beq_zero (zero_mul_beq none finite),
        extent_of_beq_zero (zero_mul_beq also finite)]

/-- A positive factor keeps the order, also an infinite one. -/
theorem not_mul_lt_mul (left : parts? x = some p) (right : parts? y = some q) (pos : 0 < z)
    (order : x ≤ y) : ¬ y * z < x * z := by
  intro reversed
  obtain ⟨defined, _⟩ := defined_of_lt reversed
  rcases cases_of_defined (defined_of_lt pos).2 with ⟨r, found⟩ | rfl | rfl
  · exact not_lt_of_le (mul_le_mul_of_parts left right found (units_pos found pos) order) reversed
  · rcases sign_cases (defined_of_parts? right) with neg | zero | above
    · have product : x * infinity = -infinity :=
        mul_infinite (sided_of_neg (lt_of_le_of_lt order neg)) .positive
      rw [product] at reversed
      exact not_lt_neg_infinity _ reversed
    · rw [isNaN_zero_mul zero rfl] at defined
      contradiction
    · have product : y * infinity = infinity := mul_infinite (sided_of_pos above) .positive
      rw [product] at reversed
      exact not_infinity_lt _ reversed
  · exact not_lt_neg_infinity _ pos

/-- Rounding a value that is not above zero does not give a positive number. -/
theorem Nearest.not_pos (nearest : Nearest x v) (nonpos : v ≤ 0) : ¬ 0 < x := by
  rw [lt_iff_extent rfl nearest.defined, not_lt]
  exact nearest.extent_le rfl (nonpos.trans_eq extent_zero.symm)

theorem not_pos_sub (found : parts? y = some q) (order : ¬ y < x) : ¬ 0 < x - y := by
  intro above
  have right := defined_of_parts? found
  have left := defined_of_sub (defined_of_lt above).2
  rcases cases_of_defined left with ⟨p, first⟩ | rfl | rfl
  · have below := le_of_not_lt left right order
    rw [le_iff first found] at below
    exact (nearest_sub first found).not_pos (sub_nonpos.mpr (Int.cast_le.mpr below)) above
  · rw [lt_iff_extent right rfl, extent_of_parts? found] at order
    exact order (units_lt_limit found).2
  · rw [neg_infinity_sub found] at above
    exact not_lt_neg_infinity _ above

theorem div_infinity_beq (found : parts? x = some p) : (x / infinity == 0) = true := by
  rw [parts?_eq] at found
  rw [beq_zero_iff, unpack_div, unpack_infinity]
  cases shape : x.toModel.unpack with
  | infinity | notANumber =>
    rw [shape] at found
    contradiction
  | zero | finite => exact ⟨_, unpack_pack_zero _⟩

theorem neg_infinity_div (found : parts? y = some q) (pos : 0 < y) : -infinity / y = -infinity := by
  change Float.ofModel (.pack (.div .binary64 (-infinity).toModel.unpack y.toModel.unpack)) = _
  rw [unpack_neg_infinity]
  rcases sided_of_pos pos with shape | ⟨m, e, positive, shape⟩
  · rw [parts?_eq, shape] at found
    contradiction
  · rw [shape]
    rfl

/-- A positive divisor keeps a number on its side of zero. -/
theorem not_pos_div (nonpos : ¬ 0 < x) (pos : 0 < y) : ¬ 0 < x / y := by
  intro above
  have left := defined_of_div (defined_of_lt above).2
  rcases cases_of_defined left with ⟨p, first⟩ | rfl | rfl
  · rcases cases_of_defined (defined_of_lt pos).2 with ⟨q, second⟩ | rfl | rfl
    · have divisor := units_pos second pos
      refine (nearest_div first second divisor.ne').not_pos ?_ above
      refine mul_nonpos_of_nonpos_of_nonneg (div_nonpos_of_nonpos_of_nonneg ?_ ?_) ?_
      · exact Int.cast_nonpos.mpr (units_nonpos first nonpos)
      · exact Int.cast_nonneg divisor.le
      · exact Nat.cast_nonneg _
    · have nothing := extent_of_beq_zero (div_infinity_beq first)
      rw [lt_iff_extent rfl (defined_of_lt above).2, nothing] at above
      exact above.ne extent_zero
    · exact not_lt_neg_infinity _ pos
  · exact nonpos rfl
  · rcases cases_of_defined (defined_of_lt pos).2 with ⟨q, second⟩ | rfl | rfl
    · rw [neg_infinity_div second pos] at above
      exact not_lt_neg_infinity _ above
    · exact absurd above (by decide)
    · exact not_lt_neg_infinity _ pos

/-- Zero has no quotient but zero. -/
theorem zero_div_beq_zero (zero : (x == 0) = true) (found : parts? y = some q)
    (divisor : q.units ≠ 0) : (x / y == 0) = true := by
  obtain ⟨s, left⟩ := beq_zero_iff.mp zero
  rw [parts?_eq] at found
  rw [beq_zero_iff, unpack_div, left]
  cases shape : y.toModel.unpack with
  | infinity | notANumber =>
    rw [shape] at found
    contradiction
  | zero =>
    rw [shape] at found
    cases found
    exact absurd (units_zero ..) divisor
  | finite => exact ⟨_, unpack_pack_zero _⟩

/-! ### Whole numbers -/

theorem one_sub_mul_beq (zero : (z == 0) = true) (finite : isFinite x = true) :
    ((1 - z) * x == x) = true := by
  obtain ⟨p, found⟩ := Option.isSome_iff_exists.mp finite
  obtain ⟨k, exactly, r, weight, units⟩ :=
    denotes_one.sub (denotes_zero_of_beq zero) (by decide)
  have one : (oneUnits : ℚ) ≠ 0 := Nat.cast_ne_zero.mpr oneUnits_pos.ne'
  have nearest := nearest_mul weight found
  rw [units, exactly (by decide)] at nearest
  have value : ((((1 - 0 : ℤ) * oneUnits : ℤ) : ℚ) * p.units) / oneUnits = p.units := by
    push_cast
    field_simp
  rw [value] at nearest
  have defined := not_isNaN_of_isFinite finite
  rw [beq_iff_extent nearest.defined defined]
  exact nearest.extent_eq defined (extent_of_parts? found)

theorem Nearest.neg (nearest : Nearest x v) : Nearest (-x) (-v) := by
  obtain ⟨defined, opposite⟩ := extent_neg nearest.defined
  exact nearest_of_extent .negative defined opposite nearest.closest

theorem nearest_ofInt (word : Word64.Signed i) : Nearest (ofInt i) (i * oneUnits) := by
  obtain ⟨low, high⟩ := word
  unfold Word64.minSigned at low
  unfold Word64.maxSigned at high
  unfold ofInt
  split
  · rename_i nonneg
    have nearest := nearest_ofNat (n := i.toNat) (by omega)
    have size : ((i.toNat : ℕ) : ℚ) = i := by
      rw [← Int.cast_natCast, Int.toNat_of_nonneg nonneg]
    rwa [size] at nearest
  · rename_i negative
    have nearest := (nearest_ofNat (n := (-i).toNat) (by omega)).neg
    have size : (((-i).toNat : ℕ) : ℚ) = -i := by
      rw [← Int.cast_natCast, Int.toNat_of_nonneg (by omega), Int.cast_neg]
    rwa [size, neg_mul, neg_neg] at nearest

/-- Words have their order as numbers. -/
theorem ofInt_le (left : Word64.Signed i) (right : Word64.Signed j) (order : i ≤ j) :
    ofInt i ≤ ofInt j := by
  have one : (0 : ℚ) < oneUnits := Nat.cast_pos.mpr oneUnits_pos
  refine (nearest_ofInt left).le (nearest_ofInt right) ?_ fun same => ?_
  · exact mul_le_mul_of_nonneg_right (Int.cast_le.mpr order) one.le
  · rw [Int.cast_injective (mul_right_cancel₀ one.ne' same)]

theorem one_le_ofNat {n : ℕ} (pos : 0 < n) (word : n < 2 ^ 64) : 1 ≤ ofNat n := by
  have nearest := nearest_ofNat word
  have whole : (1 : ℚ) ≤ n := by exact_mod_cast pos
  rw [le_iff_extent rfl nearest.defined]
  refine nearest.le_extent rfl ?_
  rw [denotes_one.extent, Int.cast_one]
  exact mul_le_mul_of_nonneg_right whole (Nat.cast_nonneg _)

/-- The number nearest to a positive word is a positive integer. -/
theorem exists_pos_denotes_ofNat {n : ℕ} (pos : 0 < n) (word : n < 2 ^ 64) :
    ∃ m : ℕ, 0 < m ∧ m ≤ 2 ^ 64 ∧ Denotes (ofNat n) m := by
  obtain ⟨m, _, small, denotes⟩ := exists_denotes_ofNat word
  have reached := (denotes_one.le_iff denotes).mp (one_le_ofNat pos word)
  exact ⟨m, by omega, small, denotes⟩

namespace Denotes

/-- Quotients by one number have the order of the integers that are divided. -/
theorem div_le_div (left : Denotes x i) (right : Denotes y j) (divisor : Denotes z k) (pos : 0 < k)
    (order : i < j) : x / z ≤ y / z := by
  have one : (0 : ℚ) < oneUnits := Nat.cast_pos.mpr oneUnits_pos
  refine (left.nearest_div divisor pos.ne').mono (right.nearest_div divisor pos.ne') ?_
  refine mul_lt_mul_of_pos_right ?_ one
  exact div_lt_div_of_pos_right (Int.cast_lt.mpr order) (Int.cast_pos.mpr pos)

/-- A quotient of integers is finite if the dividend is a word. -/
theorem finite_div (left : Denotes x i) (right : Denotes y j) (pos : 0 < j)
    (word : i.natAbs ≤ 2 ^ 64) : ∃ p, parts? (x / y) = some p := by
  have one : (0 : ℚ) ≤ oneUnits := Nat.cast_nonneg _
  have divisor : (1 : ℚ) ≤ j := by exact_mod_cast pos
  obtain ⟨large, found, size⟩ := denotes_maxUnsigned
  have top : Binary64.extent (ofNat Word64.maxUnsigned) = (2 : ℚ) ^ 64 * oneUnits := by
    rw [Denotes.extent ⟨large, found, size⟩]
    push_cast
    rfl
  obtain ⟨defined, bottom⟩ := extent_neg (defined_of_parts? found)
  obtain ⟨low, high⟩ := units_lt_limit found
  rw [← extent_of_parts? found, top] at low high
  rw [top] at bottom
  have dividend : |(i : ℚ)| ≤ 2 ^ 64 := by
    rw [← Int.cast_abs, Int.abs_eq_natAbs]
    exact_mod_cast word
  have quotient : |(i : ℚ) / j| ≤ 2 ^ 64 := by
    rw [abs_div, abs_of_pos (one_pos.trans_le divisor)]
    exact (div_le_self (abs_nonneg _) divisor).trans dividend
  obtain ⟨least, most⟩ := abs_le.mp quotient
  have nearest := left.nearest_div right pos.ne'
  have short := nearest.extent_le (defined_of_parts? found)
    (top ▸ mul_le_mul_of_nonneg_right most one)
  have long := nearest.le_extent defined
    (bottom ▸ neg_mul (2 ^ 64 : ℚ) _ ▸ mul_le_mul_of_nonneg_right least one)
  refine exists_parts_of_extent_lt nearest.defined ?_ ?_ <;> linarith

/-- A negative integer over a word is not rounded to zero. -/
theorem div_lt_zero (left : Denotes x i) (right : Denotes y j) (neg : i < 0) (pos : 0 < j)
    (word : j ≤ 2 ^ 64) : x / y < 0 := by
  have nearest := left.nearest_div right pos.ne'
  have least : Binary64.extent (Float.ofBits 1) = 1 := by
    have found : parts? (Float.ofBits 1) = some ⟨false, 1, -1074⟩ := rfl
    rw [extent_of_parts? found]
    rfl
  obtain ⟨defined, stands⟩ := extent_neg (x := Float.ofBits 1) rfl
  rw [least] at stands
  have units : 2 ^ 64 ≤ oneUnits := by
    rw [oneUnits_eq (T := 64) (by decide)]
    generalize 1074 - 64 = rest
    exact Nat.le_mul_of_pos_left _ (Nat.two_pow_pos rest)
  have fine : (2 : ℚ) ^ 64 ≤ oneUnits := by exact_mod_cast units
  have divisor : (0 : ℚ) < j := Int.cast_pos.mpr pos
  have small : (j : ℚ) ≤ 2 ^ 64 := by exact_mod_cast word
  have whole : (i : ℚ) ≤ -1 := by exact_mod_cast Int.le_sub_one_of_lt neg
  have below : (i : ℚ) / j * oneUnits ≤ -1 := by
    rw [div_mul_eq_mul_div, div_le_iff₀ divisor]
    nlinarith
  have short := nearest.extent_le defined (stands ▸ below)
  rw [lt_iff_extent nearest.defined rfl, extent_zero]
  linarith

end Denotes
end Binning.Binary64
