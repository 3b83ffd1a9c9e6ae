import Binning.Proofs.Binary64.Order

/-! Differences and floors. However it is rounded, a difference has the sign of the
exact one, so it tells which of two numbers is greater; the floor of a finite number
is the greatest integer not above it. -/
namespace Binning.Binary64
open Float.Model Float.Model.UnpackedFloat

/-! ### The sign of a sum -/

theorem neg_infinity_eq_pack : -infinity = .ofModel (.pack (.infinity .negative)) := rfl

/-- A number that is too large below zero is packed as the lower infinity. -/
theorem pack_negative_large {m : Nat} {e : Int} (pos : 0 < m) (large : 972 ≤ e) :
    Float.ofModel (.pack (.finite .negative m e pos)) = -infinity := by
  have packed : UnpackedFloat.pack .binary64 (.finite .negative m e pos) =
      UnpackedFloat.pack .binary64 (.infinity .negative) := by
    simp only [UnpackedFloat.pack]
    rw [if_pos]
    change 2 ^ 11 ≤ (e + 1023 + 52).toNat + 1
    omega
  rw [neg_infinity_eq_pack, Float.Model.pack, Float.Model.pack]
  simp only [packed]

theorem finite_lt_zero {m T : Nat} (pos : 0 < m) (small : m < 2 ^ 53)
    (normal : T ≠ 0 → 2 ^ 52 ≤ m) :
    Float.ofModel (.pack (.finite .negative m (T - 1074) pos)) < 0 := by
  rcases Nat.lt_or_ge T 2046 with modest | large
  · have shape : Canonical m ((T : Int) - 1074) := by
      refine ⟨small, by omega, by omega, ?_⟩
      rcases Nat.eq_zero_or_pos T with rfl | positive
      · exact .inr rfl
      · exact .inl (normal positive.ne')
    rw [lt_zero_iff_units (parts?_pack_finite .negative pos shape)]
    exact Int.neg_neg_of_pos (Int.natCast_pos.mpr (magnitude_pos pos _))
  · rw [pack_negative_large pos (by omega)]
    decide

theorem settle_lt_zero {r T : Nat} (pos : 0 < r) (normal : T ≠ 0 → 2 ^ 52 ≤ r) :
    Float.ofModel (.pack (settle .negative r T)) < 0 := by
  rw [settle, dif_neg pos.ne']
  split
  · rename_i below
    exact finite_lt_zero pos below normal
  · exact finite_lt_zero (T := T + 1) (Nat.two_pow_pos 52)
      (Nat.pow_lt_pow_right (by decide) (by decide)) fun _ => Nat.le_refl _

/-- Rounding leaves something of every number. -/
theorem round_lt_zero {m E : Nat} (pos : 0 < m) :
    Float.ofModel (.pack (UnpackedFloat.round .binary64 .negative m (E - 1074))) < 0 := by
  obtain ⟨r, _, _, _, normal, kept, rounded⟩ := round_eq .negative (E := E) pos
  rw [rounded]
  refine settle_lt_zero ?_ normal
  by_cases last : place m E = 0
  · rw [kept (by omega)]
    exact Nat.mul_pos pos (Nat.two_pow_pos _)
  · exact Nat.lt_of_lt_of_le (Nat.two_pow_pos 52) (normal last)

theorem normalize_lt_zero {M : Int} {E : Nat} (s : Sign) (below : M * 2 ^ E < 0) :
    Float.ofModel (.pack (UnpackedFloat.normalize .binary64 M (E - 1074) s)) < 0 := by
  have negative : M < 0 := by
    by_contra nonneg
    exact absurd below (Int.not_lt.mpr (Int.mul_nonneg (Int.not_lt.mp nonneg) (by positivity)))
  rw [UnpackedFloat.normalize, compare_lt_iff_lt.mpr negative]
  exact round_lt_zero (by omega)

theorem add_lt_zero_unpacked {u v : UnpackedFloat} {p q : Parts} (left : partsOf u = some p)
    (right : partsOf v = some q) (left_shape : Canonical p.significand p.exponent)
    (right_shape : Canonical q.significand q.exponent) (below : p.units + q.units < 0) :
    Float.ofModel (.pack (u.add .binary64 v)) < 0 := by
  cases u with
  | infinity | notANumber => contradiction
  | zero s =>
    cases left
    rw [units_zero, Int.zero_add] at below
    cases v with
    | infinity | notANumber => contradiction
    | zero t =>
      cases right
      rw [units_zero] at below
      contradiction
    | finite t k e pos =>
      exact (lt_zero_iff_units (parts?_pack_of_canonical right right_shape)).mpr below
  | finite s m d pos =>
    cases v with
    | infinity | notANumber => contradiction
    | zero t =>
      cases right
      rw [units_zero, Int.add_zero] at below
      exact (lt_zero_iff_units (parts?_pack_of_canonical left left_shape)).mpr below
    | finite t k e other =>
      cases left
      cases right
      obtain ⟨M, E, normalized, exact_sum⟩ :=
        add_finite_eq (s := s) (t := t) pos other left_shape.least right_shape.least
      rw [normalized]
      exact normalize_lt_zero _ (exact_sum ▸ below)

variable {x y : Float} {p q : Parts} {i j : Int}

/-- A difference is below zero exactly if the first number is the lesser one. -/
theorem sub_lt_zero_iff (left : parts? x = some p) (right : parts? y = some q) :
    x - y < 0 ↔ x < y := by
  rw [lt_iff left right]
  constructor
  · intro below
    by_contra above
    refine (reaches_sub left right (Nat.zero_le _) ?_).not_lt_zero below
    rw [Nat.zero_mul]
    exact Int.sub_nonneg_of_le (Int.not_lt.mp above)
  · intro less
    have left_shape := canonical_of_parts? left
    have right_shape := canonical_of_parts? right
    rw [parts?_eq] at left right
    change Float.ofModel (.pack (.sub .binary64 x.toModel.unpack y.toModel.unpack)) < 0
    rw [sub_eq_add_neg]
    refine add_lt_zero_unpacked left (partsOf_neg right) left_shape right_shape ?_
    rw [units_not]
    omega

theorem Denotes.sub_lt_zero_iff (left : Denotes x i) (right : Denotes y j) : x - y < 0 ↔ x < y := by
  obtain ⟨p, found, _⟩ := left
  obtain ⟨q, again, _⟩ := right
  exact Binary64.sub_lt_zero_iff found again

theorem neg_infinity_sub (found : parts? x = some p) : -infinity - x = -infinity := by
  change Float.ofModel (.pack (.sub .binary64 (-infinity).toModel.unpack x.toModel.unpack)) = _
  rw [parts?_eq] at found
  rw [unpack_neg_infinity, neg_infinity_eq_pack]
  cases shape : x.toModel.unpack with
  | infinity | notANumber =>
    rw [shape] at found
    contradiction
  | zero | finite => rfl

/-! ### Floors -/

/-- The integer is the greatest that is not above the number. -/
def Floors (x : Float) (f : Int) : Prop :=
  ∃ p, parts? x = some p ∧ f * oneUnits ≤ p.units ∧ p.units < (f + 1) * oneUnits

theorem floors_of_parts? (found : parts? x = some p) : Floors x (p.units / oneUnits) := by
  refine ⟨p, found, Int.ediv_mul_le _ oneUnits_pos'.ne', ?_⟩
  exact Int.lt_ediv_add_one_mul_self _ oneUnits_pos'

theorem Denotes.floors (denotes : Denotes x i) : Floors x i := by
  obtain ⟨p, found, units⟩ := denotes
  refine ⟨p, found, units.ge, ?_⟩
  rw [units, Int.add_mul, Int.one_mul]
  exact Int.lt_add_of_pos_right _ oneUnits_pos'

/-- The floor is that integer, and it is itself a number. -/
theorem Floors.denotes_floor {f : Int} (floors : Floors x f) : Denotes (floor x) f := by
  obtain ⟨p, found, low, high⟩ := floors
  have shape := canonical_of_parts? found
  have quotient : p.units / oneUnits = f := by
    have upper := Int.ediv_lt_of_lt_mul oneUnits_pos' high
    have lower := Int.le_ediv_of_mul_le oneUnits_pos' low
    omega
  unfold floor
  rw [found]
  simp only
  split
  · rename_i whole
    obtain ⟨i, units⟩ := (isWhole_iff shape.least).mp whole
    rw [units, Int.mul_ediv_cancel _ oneUnits_pos'.ne'] at quotient
    exact ⟨p, found, quotient ▸ units⟩
  · rename_i fraction
    rw [Bool.not_eq_true] at fraction
    obtain ⟨least, most⟩ := floor_bounds shape fraction
    rw [floor_eq_ediv shape fraction, quotient] at least most ⊢
    exact parts?_ofInt least most

/-! ### Words -/

/-- The cast of an integer tells which one it is, short of the ends of the words. -/
theorem Denotes.denotes_iff (denotes : Denotes x i) (low : Word64.minSigned < j)
    (high : j < Word64.maxSigned) : Denotes x j ↔ Binary64.toSigned x = j := by
  have cast := denotes.toSigned
  unfold Word64.clampSigned Word64.minSigned Word64.maxSigned at *
  constructor
  · intro other
    have same := other.unique denotes
    omega
  · intro same
    have exactly : i = j := by omega
    exact exactly ▸ denotes

theorem denotes_ofNat_of_le {n : Nat} (small : n ≤ 2 ^ 53) : Denotes (ofNat n) n := by
  obtain ⟨p, found, units⟩ := parts?_ofNat_of_le small
  exact ⟨p, found, by rw [units, Nat.cast_mul]⟩

/-- The number nearest to a word compares with a lesser integer as the word does. -/
theorem ofNat_le_iff {n : Nat} (word : n < 2 ^ 64) (denotes : Denotes x i) (small : i < 2 ^ 53) :
    ofNat n ≤ x ↔ n ≤ i := by
  rcases Nat.lt_or_ge (2 ^ 53) n with above | below
  · have reaches : Reaches (ofNat n) (2 ^ 53) := by
      rw [ofNat_eq_round (by omega) word]
      refine reaches_round (by omega) (Nat.le_refl _) ?_
      unfold oneUnits
      exact Nat.mul_le_mul_right _ above.le
    refine iff_of_false (fun le => ?_) (by omega)
    obtain ⟨p, found, units⟩ := id denotes
    rcases reaches with large | ⟨q, again, high⟩
    · rw [large, infinity_le_iff denotes.defined] at le
      rw [le] at found
      contradiction
    · rw [le_iff again found, units] at le
      have less := Int.mul_lt_mul_of_pos_right small oneUnits_pos'
      push_cast at high
      omega
  · exact (denotes_ofNat_of_le below).le_iff denotes

theorem not_lt_zero_of_ofNat_le {n : Nat} (reaches : ofNat n ≤ x) : ¬ x < 0 := by
  obtain ⟨word, defined⟩ := defined_of_le reaches
  have nonneg := ofNat_not_lt_zero n
  rw [lt_iff_not_le word denotes_zero.defined, not_not] at nonneg
  rw [lt_iff_not_le defined denotes_zero.defined, not_not]
  exact le_trans nonneg reaches

/-- A number that reaches `2 ^ 53` reaches every whole number up to there. -/
theorem ofNat_le_of_reaches {n : Nat} (small : n ≤ 2 ^ 53) (reaches : Reaches x (2 ^ 53)) :
    ofNat n ≤ x := by
  obtain ⟨p, found, units⟩ := denotes_ofNat_of_le small
  rcases reaches with rfl | ⟨q, again, above⟩
  · exact le_infinity found
  · rw [le_iff found again, units]
    refine Int.le_trans ?_ above
    exact_mod_cast Nat.mul_le_mul_right oneUnits small

end Binning.Binary64
