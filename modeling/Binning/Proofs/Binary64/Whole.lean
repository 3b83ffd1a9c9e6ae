import Binning.Proofs.Binary64.Integers

/-! Integers among the numbers. Rounding an integer gives an integer, the same
one below `2 ^ 53`, so sums and differences of integers are integers, and their
floors, casts and comparisons are those of the integers. -/
namespace Binning.Binary64
open Float.Model Float.Model.UnpackedFloat

/-! ### Rounding what is not cut -/

theorem shiftRight_of_dvd {m k : Nat} (divides : 2 ^ k ∣ m) :
    ExtendedMantissa.mk m false false >>> k = ExtendedMantissa.mk (m / 2 ^ k) false false := by
  change Nat.repeat ExtendedMantissa.shiftRightOne k _ = _
  induction k with
  | zero => simp [Nat.repeat]
  | succ k ih =>
    have shorter : 2 ^ k ∣ m := Nat.dvd_trans (Nat.pow_dvd_pow 2 (Nat.le_succ k)) divides
    have even : m / 2 ^ k % 2 = 0 := by
      obtain ⟨c, rfl⟩ := divides
      rw [Nat.pow_succ, Nat.mul_assoc, Nat.mul_div_cancel_left _ (Nat.two_pow_pos k),
        Nat.mul_mod_right]
    rw [Nat.repeat, ih shorter, ExtendedMantissa.shiftRightOne, Nat.div_div_eq_div_mul,
      Nat.pow_succ]
    simp [even]

/-- A number that is a multiple of its last place is not rounded. -/
theorem roundWithAccuracy_of_dvd (s : Sign) {m E : Nat} (divides : 2 ^ (place m E - E) ∣ m) :
    roundWithAccuracy .binary64 s m (E - 1074) .exact =
      settle s (m / 2 ^ (place m E - E)) (max E (place m E)) := by
  have whole := div_place_lt m E
  rw [roundWithAccuracy, shiftToTargetExponent_eq, shiftRight_of_dvd divides]
  exact settle_eq s (Nat.le_of_lt whole)

theorem round_of_dvd (s : Sign) {m E : Nat} (pos : 0 < m) (divides : 2 ^ place m E ∣ m * 2 ^ E) :
    UnpackedFloat.round .binary64 s m (E - 1074) =
      settle s (m * 2 ^ E / 2 ^ place m E) (place m E) := by
  have same := place_shift pos (E - place m E) (Nat.sub_le ..)
  have divisible : 2 ^ (place m E - (E - (E - place m E))) ∣ m * 2 ^ (E - place m E) := by
    rcases Nat.le_total (place m E) E with low | high
    · rw [show place m E - (E - (E - place m E)) = 0 by omega, Nat.pow_zero]
      exact Nat.one_dvd _
    · have nothing : E - place m E = 0 := by omega
      simp only [nothing, Nat.pow_zero, Nat.mul_one, Nat.sub_zero]
      apply Nat.dvd_of_mul_dvd_mul_right (Nat.two_pow_pos E)
      rwa [← Nat.pow_add, Nat.sub_add_cancel high]
  have rounded := roundWithAccuracy_of_dvd s (m := m * 2 ^ (E - place m E))
    (E := E - (E - place m E)) (same.symm ▸ divisible)
  rw [same, mul_div_place] at rounded
  have last : max (E - (E - place m E)) (place m E) = place m E := by omega
  rw [last] at rounded
  unfold UnpackedFloat.round decreaseExponent
  have amount : ((E : Int) - 1074 - ((place m E : Int) - 1074)).toNat = E - place m E := by omega
  have exponent :
      (E : Int) - 1074 - (E - place m E : Nat) = (E - (E - place m E) : Nat) - 1074 := by omega
  simp only [targetExponent_eq, amount, exponent, Nat.shiftLeft_eq]
  exact rounded

/-! ### Integers -/

/-- The number is the integer. -/
def Denotes (x : Float) (i : Int) : Prop := ∃ p, parts? x = some p ∧ p.units = i * oneUnits

variable {x y : Float} {i j : Int}

theorem oneUnits_pos' : (0 : Int) < oneUnits := Int.natCast_pos.mpr oneUnits_pos

theorem Denotes.unique (left : Denotes x i) (right : Denotes x j) : i = j := by
  obtain ⟨p, found, units⟩ := left
  obtain ⟨q, again, others⟩ := right
  cases found.symm.trans again
  exact Int.eq_of_mul_eq_mul_right oneUnits_pos'.ne' (units.symm.trans others)

theorem Denotes.lt_iff (left : Denotes x i) (right : Denotes y j) : x < y ↔ i < j := by
  obtain ⟨p, found, units⟩ := left
  obtain ⟨q, again, others⟩ := right
  rw [Binary64.lt_iff found again, units, others, Int.mul_lt_mul_right oneUnits_pos']

theorem Denotes.le_iff (left : Denotes x i) (right : Denotes y j) : x ≤ y ↔ i ≤ j := by
  obtain ⟨p, found, units⟩ := left
  obtain ⟨q, again, others⟩ := right
  rw [Binary64.le_iff found again, units, others, Int.mul_le_mul_right oneUnits_pos']

theorem denotes_zero : Denotes 0 0 := ⟨_, parts?_pack_zero .positive, by simp⟩

theorem denotes_ofNat {n : Nat} (small : n < 2 ^ 53) : Denotes (ofNat n) n := by
  obtain ⟨p, found, units⟩ := parts?_ofNat small
  exact ⟨p, found, by rw [units, Nat.cast_mul]⟩

theorem denotes_one : Denotes 1 1 := by
  rw [one_eq_ofNat]
  exact denotes_ofNat (by decide)

theorem Denotes.neg (denotes : Denotes x i) : Denotes (-x) (-i) := by
  obtain ⟨p, found, units⟩ := denotes
  exact ⟨_, parts?_neg found, by rw [units_not, units, Int.neg_mul]⟩

/-! ### Sums -/

/-- What is left of a significand at a place is read as that many of the place. -/
theorem parts?_settle (s : Sign) {r T : Nat} (small : r ≤ 2 ^ 53) (normal : T ≠ 0 → 2 ^ 52 ≤ r)
    (modest : T < 2045 ∨ T = 2045 ∧ r < 2 ^ 53) :
    ∃ p, parts? (.ofModel (.pack (settle s r T))) = some p ∧ p.units = s.apply (r * 2 ^ T : Nat) := by
  have read (m T : Nat) (pos : 0 < m) (shape : Canonical m ((T : Int) - 1074)) :
      ∃ p, parts? (.ofModel (.pack (.finite s m (T - 1074) pos))) = some p ∧
        p.units = s.apply (m * 2 ^ T : Nat) := by
    have exponent : ((T : Int) - 1074 + 1074).toNat = T := by omega
    refine ⟨_, parts?_pack_finite s pos shape, ?_⟩
    rw [units_eq_apply, exponent]
    cases s with
    | positive => exact (Nat.cast_mul ..).symm
    | negative =>
      change -(m : Int) * 2 ^ T = -((m * 2 ^ T : Nat) : Int)
      push_cast
      ring
  unfold settle
  split
  · rename_i nothing
    refine ⟨_, parts?_pack_zero s, ?_⟩
    rw [units_zero, nothing, Nat.zero_mul]
    cases s <;> rfl
  split
  · rename_i below
    refine read r T _ ⟨below, by omega, by omega, ?_⟩
    rcases Nat.eq_zero_or_pos T with rfl | positive
    · exact .inr rfl
    · exact .inl (normal positive.ne')
  · have carried : r = 2 ^ 53 := by omega
    have doubled : r * 2 ^ T = 2 ^ 52 * 2 ^ (T + 1) := by
      rw [carried]
      ring
    rw [doubled]
    exact read (2 ^ 52) (T + 1) _
      ⟨Nat.pow_lt_pow_right (by decide) (by decide), by omega, by omega, .inl (Nat.le_refl _)⟩

theorem log2_mul_oneUnits {n : Nat} (pos : 0 < n) : (n * oneUnits).log2 = n.log2 + 1074 := by
  unfold oneUnits
  generalize 1074 = last
  exact log2_mul_two_pow pos last

theorem apply_mul (s : Sign) (m n : Nat) : s.apply ((m * n : Nat) : Int) = s.apply m * n := by
  cases s with
  | positive => exact Nat.cast_mul ..
  | negative =>
    change -((m * n : Nat) : Int) = -(m : Int) * n
    push_cast
    ring

/-- Shifted as far up as it fits, a number is a normal significand. -/
theorem shifted_significand {n : Nat} (positive : 0 < n) (short : n.log2 < 53) :
    2 ^ 52 ≤ n * 2 ^ (52 - n.log2) ∧ n * 2 ^ (52 - n.log2) < 2 ^ 53 := by
  constructor
  · calc 2 ^ 52 = 2 ^ n.log2 * 2 ^ (52 - n.log2) := by rw [← Nat.pow_add]; congr 1; omega
      _ ≤ n * 2 ^ (52 - n.log2) := Nat.mul_le_mul_right _ (Nat.log2_self_le positive.ne')
  · calc n * 2 ^ (52 - n.log2) < 2 ^ (n.log2 + 1) * 2 ^ (52 - n.log2) :=
          Nat.mul_lt_mul_of_pos_right Nat.lt_log2_self (Nat.two_pow_pos _)
      _ = 2 ^ 53 := by rw [← Nat.pow_add]; congr 1; omega

/-- An integer is rounded to an integer. -/
theorem denotes_round (s : Sign) {m E n : Nat} (pos : 0 < m) (whole : m * 2 ^ E = n * oneUnits)
    (modest : n < 2 ^ 200) :
    ∃ k : Nat, (n < 2 ^ 53 → k = n) ∧
      Denotes (.ofModel (.pack (UnpackedFloat.round .binary64 s m (E - 1074)))) (s.apply k) := by
  have positive : 0 < n := by
    refine Nat.pos_of_ne_zero fun zero => ?_
    rw [zero, Nat.zero_mul] at whole
    exact (Nat.mul_pos pos (Nat.two_pow_pos E)).ne' whole
  have log : m.log2 + E = n.log2 + 1074 := by
    rw [← log2_mul_two_pow pos, whole, log2_mul_oneUnits positive]
  have bounded : n.log2 < 200 := (Nat.log2_lt positive.ne').mpr modest
  rcases Nat.lt_or_ge n (2 ^ 53) with small | large
  · have short : n.log2 < 53 := (Nat.log2_lt positive.ne').mpr small
    have inside : place m E ≤ 1074 := by
      unfold place
      omega
    have scaled : m * 2 ^ E = n * 2 ^ (1074 - place m E) * 2 ^ place m E := by
      rw [whole, oneUnits_eq inside, Nat.mul_assoc]
    have places : 1074 - place m E = 52 - n.log2 := by
      unfold place
      omega
    obtain ⟨low, high⟩ := shifted_significand positive short
    rw [← places] at low high
    have rounded := round_of_dvd s pos ⟨_, scaled.trans (Nat.mul_comm ..)⟩
    rw [scaled, Nat.mul_div_cancel _ (Nat.two_pow_pos _)] at rounded
    obtain ⟨p, found, units⟩ := parts?_settle s (Nat.le_of_lt high) (fun _ => low)
      (T := place m E) (.inl (by omega))
    refine ⟨n, fun _ => rfl, p, rounded ▸ found, ?_⟩
    rw [units, ← scaled, whole, apply_mul]
  · have beyond : 1074 ≤ place m E := by
      have := (Nat.le_log2 positive.ne').mpr large
      unfold place
      omega
    obtain ⟨r, _, _, high, normal, _, rounded⟩ := round_eq s (E := E) pos
    obtain ⟨p, found, units⟩ := parts?_settle s high normal (.inl (by unfold place; omega))
    refine ⟨r * 2 ^ (place m E - 1074), fun small => absurd small (Nat.not_lt.mpr large), p,
      rounded ▸ found, ?_⟩
    have split : r * 2 ^ place m E = r * 2 ^ (place m E - 1074) * oneUnits := by
      rw [Nat.mul_assoc, ← two_pow_eq beyond]
    rw [units, split, apply_mul]

theorem denotes_normalize (s : Sign) {M : Int} {E : Nat} (whole : M * 2 ^ E = i * oneUnits)
    (modest : i.natAbs < 2 ^ 200) :
    ∃ k, (i.natAbs < 2 ^ 53 → k = i) ∧
      Denotes (.ofModel (.pack (UnpackedFloat.normalize .binary64 M (E - 1074) s))) k := by
  have size : M.natAbs * 2 ^ E = i.natAbs * oneUnits := by
    have := congrArg Int.natAbs whole
    rwa [Int.natAbs_mul, Int.natAbs_mul, Int.natAbs_natCast, Int.natAbs_pow] at this
  have sign : M.sign = i.sign := by
    have := congrArg Int.sign whole
    rwa [Int.sign_mul, Int.sign_mul, Int.sign_eq_one_of_pos oneUnits_pos', Int.mul_one,
      Int.sign_eq_one_of_pos (Int.pow_pos (by decide)), Int.mul_one] at this
  unfold UnpackedFloat.normalize
  split
  · rename_i below
    have negative := compare_lt_iff_lt.mp below
    have positive : 0 < (-M).toNat := by omega
    have whole : (-M).toNat * 2 ^ E = i.natAbs * oneUnits := by
      rw [← size]
      congr 1
      omega
    obtain ⟨k, same, denotes⟩ := denotes_round .negative positive whole modest
    refine ⟨_, fun small => ?_, denotes⟩
    rw [same small]
    rw [Int.sign_eq_neg_one_of_neg negative] at sign
    have := Int.sign_eq_neg_one_iff_neg.mp sign.symm
    change -(i.natAbs : Int) = i
    omega
  · rename_i same
    have zero := compare_eq_iff_eq.mp same
    rw [zero, Int.sign_zero, eq_comm, Int.sign_eq_zero_iff_zero] at sign
    exact ⟨0, fun _ => sign.symm, _, parts?_pack_zero s, by simp⟩
  · rename_i above
    have positive := compare_gt_iff_gt.mp above
    have some_units : 0 < M.toNat := by omega
    have whole : M.toNat * 2 ^ E = i.natAbs * oneUnits := by
      rw [← size]
      congr 1
      omega
    obtain ⟨k, same, denotes⟩ := denotes_round .positive some_units whole modest
    refine ⟨_, fun small => ?_, denotes⟩
    rw [same small]
    rw [Int.sign_eq_one_of_pos positive] at sign
    have := Int.sign_eq_one_iff_pos.mp sign.symm
    change (i.natAbs : Int) = i
    omega

theorem partsOf_eq_of_denotes (denotes : Denotes x i) : ∃ p, partsOf x.toModel.unpack = some p ∧
    Canonical p.significand p.exponent ∧ p.units = i * oneUnits := by
  obtain ⟨p, found, units⟩ := denotes
  exact ⟨p, parts?_eq x ▸ found, canonical_of_parts? found, units⟩

theorem denotes_add_unpacked {u v : UnpackedFloat} {p q : Parts} (left : partsOf u = some p)
    (right : partsOf v = some q) (left_shape : Canonical p.significand p.exponent)
    (right_shape : Canonical q.significand q.exponent) (whole : p.units + q.units = i * oneUnits)
    (modest : i.natAbs < 2 ^ 200) :
    ∃ k, (i.natAbs < 2 ^ 53 → k = i) ∧ Denotes (.ofModel (.pack (u.add .binary64 v))) k := by
  cases u with
  | infinity | notANumber => contradiction
  | zero s =>
    cases left
    rw [units_zero, Int.zero_add] at whole
    cases v with
    | infinity | notANumber => contradiction
    | zero t =>
      cases right
      rw [units_zero] at whole
      refine ⟨i, fun _ => rfl, ?_⟩
      rw [UnpackedFloat.add]
      split <;> exact ⟨_, parts?_pack_zero _, by rw [units_zero, whole]⟩
    | finite t k e pos =>
      exact ⟨i, fun _ => rfl, q, parts?_pack_of_canonical right right_shape, whole⟩
  | finite s m d pos =>
    cases v with
    | infinity | notANumber => contradiction
    | zero t =>
      cases right
      rw [units_zero, Int.add_zero] at whole
      exact ⟨i, fun _ => rfl, p, parts?_pack_of_canonical left left_shape, whole⟩
    | finite t k e other =>
      cases left
      cases right
      obtain ⟨M, E, normalized, exact_sum⟩ :=
        add_finite_eq (s := s) (t := t) pos other left_shape.least right_shape.least
      rw [normalized]
      exact denotes_normalize _ (exact_sum.trans whole) modest

/-- The sum of two integers is an integer, their own sum if it is small. -/
theorem Denotes.add (left : Denotes x i) (right : Denotes y j) (modest : (i + j).natAbs < 2 ^ 200) :
    ∃ k, ((i + j).natAbs < 2 ^ 53 → k = i + j) ∧ Denotes (x + y) k := by
  obtain ⟨p, found, left_shape, units⟩ := partsOf_eq_of_denotes left
  obtain ⟨q, again, right_shape, others⟩ := partsOf_eq_of_denotes right
  rw [add_eq_pack]
  refine denotes_add_unpacked found again left_shape right_shape ?_ modest
  rw [units, others, Int.add_mul]

theorem Denotes.sub (left : Denotes x i) (right : Denotes y j) (modest : (i - j).natAbs < 2 ^ 200) :
    ∃ k, ((i - j).natAbs < 2 ^ 53 → k = i - j) ∧ Denotes (x - y) k := by
  obtain ⟨p, found, left_shape, units⟩ := partsOf_eq_of_denotes left
  obtain ⟨q, again, right_shape, others⟩ := partsOf_eq_of_denotes right
  change ∃ k, _ ∧ Denotes (.ofModel (.pack (.sub .binary64 x.toModel.unpack y.toModel.unpack))) k
  rw [sub_eq_add_neg]
  refine denotes_add_unpacked found (partsOf_neg again) left_shape right_shape ?_ modest
  rw [units_not, units, others, Int.sub_mul, Int.sub_eq_add_neg]

/-! ### Words -/

/-- The largest word is rounded to the number behind it. -/
theorem denotes_maxUnsigned : Denotes (ofNat Word64.maxUnsigned) (2 ^ 64 : Nat) := by
  have found : parts? (ofNat Word64.maxUnsigned) = some ⟨false, 2 ^ 52, 12⟩ := rfl
  have size : magnitude (2 ^ 52) 12 = 2 ^ 64 * oneUnits := by
    have exponent : ((12 : Int) + 1074).toNat = 1086 := rfl
    rw [magnitude, exponent, two_pow_eq (T := 1086) (by decide), ← Nat.mul_assoc, ← Nat.pow_add]
  exact ⟨_, found, congrArg Int.ofNat size⟩

/-- The number nearest to a word is an integer, the word itself if it is small. -/
theorem exists_denotes_ofNat {n : Nat} (word : n < 2 ^ 64) :
    ∃ m : Nat, (n < 2 ^ 53 → m = n) ∧ m ≤ 2 ^ 64 ∧ Denotes (ofNat n) m := by
  rcases Nat.eq_zero_or_pos n with rfl | pos
  · exact ⟨0, fun _ => rfl, Nat.zero_le _, denotes_ofNat (by decide)⟩
  · obtain ⟨m, same, denotes⟩ := denotes_round .positive (E := 1074) pos
      (by unfold oneUnits; rfl) (by omega)
    rw [← ofNat_eq_round pos word] at denotes
    obtain ⟨p, found, units⟩ := denotes_maxUnsigned
    have below : ofNat n ≤ ofNat Word64.maxUnsigned := by
      refine ofNat_le pos word found ?_
      rw [units, Nat.cast_mul]
      exact Int.mul_lt_mul_of_pos_right (Int.ofNat_lt.mpr word) oneUnits_pos'
    exact ⟨m, same, Int.ofNat_le.mp ((denotes.le_iff denotes_maxUnsigned).mp below), denotes⟩

theorem place_eq_of_canonical {m T n : Nat} (shape : Canonical m (T - 1074)) (positive : 0 < m)
    (pos : 0 < n) (size : m * 2 ^ T = n * oneUnits) : place n 1074 = T := by
  have log : m.log2 + T = n.log2 + 1074 := by
    rw [← log2_mul_two_pow positive, size, log2_mul_oneUnits pos]
  have short : m.log2 < 53 := (Nat.log2_lt positive.ne').mpr shape.significand
  unfold place
  rcases shape.normal with normal | least
  · have := (Nat.le_log2 positive.ne').mpr normal
    omega
  · have least : (T : Int) - 1074 = -1074 := least
    omega

/-- A positive integer among the numbers, by its significand and its last place. -/
theorem exists_finite_of_denotes {n : Nat} (pos : 0 < n) (denotes : Denotes x n) :
    ∃ (m T : Nat) (positive : 0 < m),
      x = .ofModel (.pack (.finite .positive m (T - 1074) positive)) ∧
        Canonical m (T - 1074) ∧ m * 2 ^ T = n * oneUnits := by
  obtain ⟨p, unpacked, shape, units⟩ := partsOf_eq_of_denotes denotes
  have above : (0 : Int) < n * oneUnits := Int.mul_pos (Int.natCast_pos.mpr pos) oneUnits_pos'
  have packed : x = .ofModel (.pack x.toModel.unpack) := by rw [pack_unpack]
  cases number : x.toModel.unpack with
  | infinity | notANumber =>
    rw [number] at unpacked
    contradiction
  | zero s =>
    rw [number] at unpacked
    cases unpacked
    rw [units_zero] at units
    exact absurd units above.ne
  | finite s m e positive =>
    rw [number] at unpacked packed
    cases unpacked
    obtain ⟨T, rfl⟩ : ∃ T : Nat, e = T - 1074 := by
      have least : -1074 ≤ e := shape.least
      exact ⟨(e + 1074).toNat, by omega⟩
    have exponent : ((T : Int) - 1074 + 1074).toNat = T := by omega
    rw [units_eq_apply, exponent] at units
    cases s with
    | negative =>
      have below := Int.mul_neg_of_neg_of_pos (Int.neg_neg_of_pos (Int.natCast_pos.mpr positive))
        (Int.pow_pos (show (0 : Int) < 2 by decide) (m := T))
      change -(m : Int) * 2 ^ T = _ at units
      omega
    | positive =>
      change (m : Int) * 2 ^ T = _ at units
      exact ⟨m, T, positive, packed, shape, by exact_mod_cast units⟩

/-- An integer that is a number is the number nearest to itself. -/
theorem ofNat_eq_of_denotes {n : Nat} (pos : 0 < n) (word : n < 2 ^ 64) (denotes : Denotes x n) :
    ofNat n = x := by
  obtain ⟨m, T, positive, rfl, shape, size⟩ := exists_finite_of_denotes pos denotes
  have last := place_eq_of_canonical shape positive pos size
  have scaled : n * 2 ^ 1074 = m * 2 ^ T := by
    rw [size]
    unfold oneUnits
    rfl
  have rounded := round_of_dvd .positive pos (E := 1074)
    ⟨m, by rw [last, scaled, Nat.mul_comm]⟩
  rw [last, scaled, Nat.mul_div_cancel _ (Nat.two_pow_pos _)] at rounded
  rw [ofNat_eq_round pos word, rounded, settle, dif_neg positive.ne', if_pos shape.significand]

theorem exists_denotes_ofInt {i : Int} (word : Word64.Signed i) :
    ∃ k : Int, (i.natAbs < 2 ^ 53 → k = i) ∧ k.natAbs ≤ 2 ^ 64 ∧ Denotes (ofInt i) k := by
  obtain ⟨low, high⟩ := word
  unfold Word64.minSigned at low
  unfold Word64.maxSigned at high
  unfold ofInt
  split
  · rename_i nonneg
    obtain ⟨m, same, bounded, denotes⟩ := exists_denotes_ofNat (n := i.toNat) (by omega)
    exact ⟨m, fun small => by omega, bounded, denotes⟩
  · rename_i negative
    obtain ⟨m, same, bounded, denotes⟩ := exists_denotes_ofNat (n := (-i).toNat) (by omega)
    exact ⟨-m, fun small => by omega, by omega, denotes.neg⟩

/-- The difference of two words, each of them rounded, is an integer, and the
difference itself if all are small. -/
theorem exists_denotes_sub {i j : Int} (left : Word64.Signed i) (right : Word64.Signed j) :
    ∃ k : Int, (i.natAbs < 2 ^ 52 → j.natAbs < 2 ^ 52 → k = i - j) ∧
      Denotes (ofInt i - ofInt j) k := by
  obtain ⟨m, first, small, denotes⟩ := exists_denotes_ofInt left
  obtain ⟨n, second, short, others⟩ := exists_denotes_ofInt right
  obtain ⟨k, same, difference⟩ := denotes.sub others (by omega)
  exact ⟨k, fun one other => by omega, difference⟩

/-! ### Differences that are counted -/

theorem lt_of_reaches {m n : Nat} (small : m < 2 ^ 53) (less : m < n) (reaches : Reaches x n) :
    ofNat m < x := by
  obtain ⟨p, found, units⟩ := parts?_ofNat small
  rcases reaches with rfl | ⟨q, again, above⟩
  · exact lt_infinity found
  · rw [lt_iff found again, units]
    refine Int.lt_of_lt_of_le (Int.ofNat_lt.mpr ?_) above
    exact Nat.mul_lt_mul_of_pos_right less oneUnits_pos

/-- One more than a difference is exact, or it is as large as a significand. -/
theorem Denotes.sub_add_one (left : Denotes x i) (right : Denotes y j) (above : j ≤ i) :
    Denotes (x - y + 1) (i - j + 1) ∨ Reaches (x - y + 1) (2 ^ 53) := by
  rcases Int.lt_or_le (i - j) (2 ^ 53 - 1) with small | large
  · left
    obtain ⟨k, same, difference⟩ := left.sub right (by omega)
    rw [same (by omega)] at difference
    obtain ⟨k, same, sum⟩ := difference.add denotes_one (by omega)
    rwa [same (by omega)] at sum
  · right
    obtain ⟨p, found, units⟩ := left
    obtain ⟨q, again, others⟩ := right
    have reaches : Reaches (x - y) (2 ^ 53 - 1) := by
      refine reaches_sub found again (by decide) ?_
      rw [units, others, ← Int.sub_mul, Nat.cast_mul]
      exact Int.mul_le_mul_of_nonneg_right large oneUnits_pos'.le
    exact reaches.add_one (by decide)

/-! ### Floors and casts -/

theorem natAbs_withSign (p : Parts) (n : Nat) : (p.withSign n).natAbs = n := by
  unfold Parts.withSign
  split <;> omega

theorem isWhole_iff {p : Parts} (least : -1074 ≤ p.exponent) :
    p.isWhole = true ↔ ∃ i : Int, p.units = i * oneUnits := by
  have scale : (p.exponent + 1074).toNat = p.exponent.toNat + (1074 - (-p.exponent).toNat) := by
    omega
  have inside : (-p.exponent).toNat ≤ 1074 := by omega
  have shifted : magnitude p.significand p.exponent =
      p.significand <<< p.exponent.toNat * 2 ^ (1074 - (-p.exponent).toNat) := by
    rw [magnitude, scale, Nat.pow_add, Nat.shiftLeft_eq, Nat.mul_assoc]
  rw [← dvd_iff_exists_eq_mul_left, Int.natCast_dvd, Parts.units, natAbs_withSign, shifted,
    oneUnits_eq inside, Nat.mul_comm (2 ^ _), Nat.mul_dvd_mul_iff_right (Nat.two_pow_pos _),
    Parts.isWhole, beq_iff_eq, Nat.shiftLeft_eq 1, Nat.one_mul, Nat.dvd_iff_mod_eq_zero]

theorem exists_denotes_of_isWhole (whole : isWhole x = true) : ∃ i, Denotes x i := by
  obtain ⟨p, found, whole⟩ := (Option.any_eq_true ..).mp whole
  obtain ⟨i, units⟩ := (isWhole_iff (canonical_of_parts? found).least).mp whole
  exact ⟨i, p, found, units⟩

theorem Denotes.isWhole (denotes : Denotes x i) : isWhole x = true := by
  obtain ⟨p, found, units⟩ := denotes
  rw [Binary64.isWhole, found]
  exact (isWhole_iff (canonical_of_parts? found).least).mpr ⟨i, units⟩

theorem Denotes.floor (denotes : Denotes x i) : floor x = x := by
  have whole := denotes.isWhole
  obtain ⟨p, found, _⟩ := denotes
  rw [Binary64.isWhole, found, Option.any_some] at whole
  rw [Binary64.floor, found]
  exact if_pos whole

theorem truncate_eq {p : Parts} (least : -1074 ≤ p.exponent) (units : p.units = i * oneUnits) :
    p.truncate = i := by
  have whole := magnitude_div p.significand least
  have size : magnitude p.significand p.exponent = i.natAbs * oneUnits := by
    rw [← natAbs_withSign p (magnitude ..), ← Parts.units, units, Int.natAbs_mul,
      Int.natAbs_natCast]
  rw [size, Nat.mul_div_cancel _ oneUnits_pos] at whole
  rw [Parts.truncate, ← whole]
  rw [Parts.units, size] at units
  unfold Parts.withSign at units ⊢
  have scale := oneUnits_pos'
  split
  · rename_i negative
    rw [if_pos negative, Nat.cast_mul, ← Int.neg_mul] at units
    exact Int.eq_of_mul_eq_mul_right scale.ne' units
  · rename_i positive
    rw [if_neg positive, Nat.cast_mul] at units
    exact Int.eq_of_mul_eq_mul_right scale.ne' units

theorem Denotes.toSigned (denotes : Denotes x i) : toSigned x = Word64.clampSigned i := by
  obtain ⟨p, found, units⟩ := denotes
  rw [Binary64.toSigned, found]
  exact congrArg Word64.clampSigned (truncate_eq (canonical_of_parts? found).least units)

theorem Denotes.toUnsigned (denotes : Denotes x i) : toUnsigned x = Word64.clampUnsigned i := by
  obtain ⟨p, found, units⟩ := denotes
  rw [Binary64.toUnsigned, found]
  exact congrArg Word64.clampUnsigned (truncate_eq (canonical_of_parts? found).least units)

/-- A number below the one nearest to a word has an integer part below the word. -/
theorem toSigned_lt {n : Nat} (pos : 0 < n) (word : n < 2 ^ 63) (nonneg : ¬ x < 0)
    (short : ¬ ofNat n ≤ x) : toSigned x < n := by
  cases found : parts? x with
  | none =>
    rcases eq_infinity_or_isNaN found nonneg with rfl | nan
    · obtain ⟨_, _, _, q, nearest, _⟩ := exists_denotes_ofNat (n := n) (by omega)
      exact absurd (le_infinity nearest) short
    · rw [toSigned_eq_zero found nan]
      omega
  | some p =>
    rw [lt_zero_iff_units found, Int.not_lt] at nonneg
    have below : p.units < n * oneUnits := by
      rcases Int.lt_trichotomy p.units (n * oneUnits) with less | same | more
      · exact less
      · have nearest := ofNat_eq_of_denotes pos (by omega) ⟨p, found, same⟩
        have reaches : x ≤ x := (le_iff found found).mpr (Int.le_refl _)
        exact absurd (nearest ▸ reaches) short
      · exact absurd (ofNat_le pos (by omega) found (by exact_mod_cast more)) short
    have part : p.units / oneUnits < n := Int.ediv_lt_of_lt_mul oneUnits_pos' below
    have whole := Int.ediv_nonneg nonneg oneUnits_pos'.le
    rw [toSigned_eq found nonneg, Word64.clampSigned, Word64.minSigned, Word64.maxSigned]
    omega

end Binning.Binary64
