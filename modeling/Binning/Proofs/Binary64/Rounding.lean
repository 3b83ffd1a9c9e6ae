import Binning.Proofs.Binary64.Units

/-! What rounding keeps. A sum that is at least a whole number of no more than
`2 ^ 53` is rounded to a number that is at least as large, because that whole
number is a binary64 number itself. -/
namespace Binning.Binary64
open Float.Model Float.Model.UnpackedFloat

/-! ### The last place -/

theorem mantissa_shiftRight (em : ExtendedMantissa) (k : Nat) :
    (em >>> k).mantissa = em.mantissa / 2 ^ k := by
  change (Nat.repeat ExtendedMantissa.shiftRightOne k em).mantissa = _
  induction k with
  | zero => simp [Nat.repeat]
  | succ k ih =>
    rw [Nat.repeat, ExtendedMantissa.shiftRightOne, ih, Nat.div_div_eq_div_mul, Nat.pow_succ]

theorem roundedMantissa_bounds (em : ExtendedMantissa) :
    em.mantissa ≤ em.roundedMantissa ∧ em.roundedMantissa ≤ em.mantissa + 1 := by
  obtain ⟨m, roundBit, stickyBit⟩ := em
  have parity := Nat.mod_lt m (show 0 < 2 by decide)
  cases roundBit <;> cases stickyBit <;>
    simp [ExtendedMantissa.roundedMantissa, ExtendedMantissa.accuracy, Accuracy.roundToNearestEven]
  omega

/-- The number of the last place that is kept of `m * 2 ^ E`. -/
def place (m E : Nat) : Nat := m.log2 + E - 52

theorem targetExponent_eq (m E : Nat) :
    Format.binary64.targetExponent (totalExponent m (E - 1074)) = (place m E : Int) - 1074 := by
  simp only [Format.targetExponent, totalExponent, place]
  change max ((m.log2 : Int) + 1 + (E - 1074) - 53) (-1074) = _
  omega

theorem shiftToTargetExponent_eq (m E : Nat) :
    shiftToTargetExponent .binary64 m (E - 1074) .exact =
      (ExtendedMantissa.mk m false false >>> (place m E - E),
        ((max E (place m E) : Nat) : Int) - 1074) := by
  simp only [shiftToTargetExponent, targetExponent_eq, shiftToExponent]
  have amount : ((place m E : Int) - 1074 - (E - 1074)).toNat = place m E - E := by omega
  rw [amount]
  refine Prod.ext rfl ?_
  simp only
  omega

/-- What is left of a rounded significand at a place. -/
def settle (s : Sign) (r T : Nat) : UnpackedFloat :=
  if h : r = 0 then .zero s
  else if r < 2 ^ 53 then .finite s r (T - 1074) (Nat.pos_of_ne_zero h)
  else .finite s (2 ^ 52) ((T + 1 : Nat) - 1074) (by decide)

theorem place_le_of_lt {m E : Nat} (small : m < 2 ^ 53) : place m E ≤ E := by
  have log : m.log2 ≤ 52 := by
    rcases Nat.eq_zero_or_pos m with rfl | pos
    · decide
    · exact Nat.le_of_lt_succ ((Nat.log2_lt (by omega)).mpr small)
  unfold place
  omega

theorem settle_eq (s : Sign) {r T : Nat} (small : r ≤ 2 ^ 53) :
    (if h : (shiftToTargetExponent .binary64 r (T - 1074) .exact).1.mantissa = 0 then .zero s
      else .finite s (shiftToTargetExponent .binary64 r (T - 1074) .exact).1.mantissa
        (shiftToTargetExponent .binary64 r (T - 1074) .exact).2 (Nat.pos_of_ne_zero h)) =
      settle s r T := by
  rw [shiftToTargetExponent_eq, settle]
  rcases Nat.lt_or_eq_of_le small with below | rfl
  · have stays := place_le_of_lt (E := T) below
    have amount : place r T - T = 0 := by omega
    have exponent : max T (place r T) = T := by omega
    simp only [amount, exponent, mantissa_shiftRight, Nat.pow_zero, Nat.div_one, below, if_true]
  · have moves : place (2 ^ 53) T = T + 1 := by
      rw [place, Nat.log2_two_pow]
      omega
    have amount : place (2 ^ 53) T - T = 1 := by omega
    have exponent : max T (place (2 ^ 53) T) = T + 1 := by omega
    simp only [amount, exponent, mantissa_shiftRight]
    rfl

/-- The whole multiples of the last place fill a significand, and no more. -/
theorem div_place_lt (m E : Nat) : m / 2 ^ (place m E - E) < 2 ^ 53 := by
  rw [Nat.div_lt_iff_lt_mul (Nat.two_pow_pos _), ← Nat.pow_add]
  refine Nat.lt_of_lt_of_le Nat.lt_log2_self (Nat.pow_le_pow_right (by decide) ?_)
  unfold place
  omega

theorem le_div_place {m E : Nat} (pos : 0 < m) (lower : E ≤ place m E)
    (some_place : place m E ≠ 0) :
    2 ^ 52 ≤ m / 2 ^ (place m E - E) := by
  rw [Nat.le_div_iff_mul_le (Nat.two_pow_pos _), ← Nat.pow_add]
  refine Nat.le_trans (Nat.pow_le_pow_right (by decide) ?_) (Nat.log2_self_le (by omega))
  unfold place at *
  omega

/-- Rounding keeps the whole multiples of the last place, or adds one to them. -/
theorem roundWithAccuracy_eq (s : Sign) (m E : Nat) :
    ∃ r, m / 2 ^ (place m E - E) ≤ r ∧ r ≤ m / 2 ^ (place m E - E) + 1 ∧
      (place m E ≤ E → r = m) ∧
      roundWithAccuracy .binary64 s m (E - 1074) .exact = settle s r (max E (place m E)) := by
  have bounds := roundedMantissa_bounds (ExtendedMantissa.mk m false false >>> (place m E - E))
  have whole := div_place_lt m E
  rw [mantissa_shiftRight] at bounds
  simp only at bounds
  refine ⟨_, bounds.1, bounds.2, ?_, ?_⟩
  · intro stays
    rw [show place m E - E = 0 by omega]
    rfl
  · rw [roundWithAccuracy, shiftToTargetExponent_eq]
    exact settle_eq s (by omega)

theorem log2_mul_two_pow {m : Nat} (pos : 0 < m) (k : Nat) : (m * 2 ^ k).log2 = m.log2 + k := by
  rw [Nat.log2_eq_iff (Nat.mul_ne_zero (by omega) (Nat.two_pow_pos k).ne'), Nat.pow_add,
    Nat.add_right_comm, Nat.pow_add, Nat.mul_le_mul_right_iff (Nat.two_pow_pos k),
    Nat.mul_lt_mul_right (Nat.two_pow_pos k)]
  exact ⟨Nat.log2_self_le (by omega), Nat.lt_log2_self⟩

theorem place_shift {m E : Nat} (pos : 0 < m) (k : Nat) (below : k ≤ E) :
    place (m * 2 ^ k) (E - k) = place m E := by
  have log := log2_mul_two_pow pos k
  unfold place
  omega

theorem mul_div_place (m E T : Nat) :
    m * 2 ^ (E - T) / 2 ^ (T - (E - (E - T))) = m * 2 ^ E / 2 ^ T := by
  rcases Nat.le_total T E with low | high
  · rw [show T - (E - (E - T)) = 0 by omega, Nat.pow_zero, Nat.div_one]
    refine (Nat.div_eq_of_eq_mul_left (Nat.two_pow_pos T) ?_).symm
    rw [Nat.mul_assoc, ← Nat.pow_add, Nat.sub_add_cancel low]
  · rw [show E - T = 0 by omega, Nat.pow_zero, Nat.mul_one, Nat.sub_zero]
    rw [← Nat.mul_div_mul_right m _ (Nat.two_pow_pos E), ← Nat.pow_add, Nat.sub_add_cancel high]

/-- Rounding to a last place, from a number of any exponent. -/
theorem round_eq (s : Sign) {m E : Nat} (pos : 0 < m) :
    ∃ r, m * 2 ^ E / 2 ^ place m E ≤ r ∧ r ≤ m * 2 ^ E / 2 ^ place m E + 1 ∧ r ≤ 2 ^ 53 ∧
      (place m E ≠ 0 → 2 ^ 52 ≤ r) ∧ (place m E ≤ E → r = m * 2 ^ (E - place m E)) ∧
      UnpackedFloat.round .binary64 s m (E - 1074) = settle s r (place m E) := by
  have same := place_shift pos (E - place m E) (Nat.sub_le ..)
  have scaled : 0 < m * 2 ^ (E - place m E) := Nat.mul_pos pos (Nat.two_pow_pos _)
  have bound := div_place_lt (m * 2 ^ (E - place m E)) (E - (E - place m E))
  have normal := le_div_place (E := E - (E - place m E)) scaled
  obtain ⟨r, low, high, kept, rounded⟩ :=
    roundWithAccuracy_eq s (m * 2 ^ (E - place m E)) (E - (E - place m E))
  rw [same] at low high kept rounded bound normal
  rw [mul_div_place] at low high bound normal
  have last : max (E - (E - place m E)) (place m E) = place m E := by omega
  rw [last] at rounded
  refine ⟨r, low, high, by omega, by omega, fun stays => kept (by omega), ?_⟩
  unfold UnpackedFloat.round decreaseExponent
  have amount : ((E : Int) - 1074 - ((place m E : Int) - 1074)).toNat = E - place m E := by omega
  have exponent :
      (E : Int) - 1074 - (E - place m E : Nat) = (E - (E - place m E) : Nat) - 1074 := by omega
  simp only [targetExponent_eq, amount, exponent, Nat.shiftLeft_eq]
  exact rounded

/-- Rounding does not pass a number that is larger. -/
theorem rounded_le {m E r k F : Nat} (pos : 0 < m) (near : r ≤ m * 2 ^ E / 2 ^ place m E + 1)
    (small : k < 2 ^ 53) (above : m * 2 ^ E < k * 2 ^ F) : r * 2 ^ place m E ≤ k * 2 ^ F := by
  rcases Nat.lt_or_ge F (place m E) with finer | coarser
  · -- a number with a lower last place is not large enough
    exfalso
    have log := Nat.log2_self_le pos.ne'
    have top : 52 + place m E = m.log2 + E := by
      unfold place at *
      omega
    have : k * 2 ^ F < m * 2 ^ E := by
      calc k * 2 ^ F < 2 ^ 53 * 2 ^ F := Nat.mul_lt_mul_of_pos_right small (Nat.two_pow_pos F)
        _ = 2 ^ 52 * 2 ^ (F + 1) := by ring
        _ ≤ 2 ^ 52 * 2 ^ place m E :=
          Nat.mul_le_mul_left _ (Nat.pow_le_pow_right Nat.two_pos finer)
        _ = 2 ^ m.log2 * 2 ^ E := by rw [← Nat.pow_add, ← Nat.pow_add, top]
        _ ≤ m * 2 ^ E := Nat.mul_le_mul_right _ log
    omega
  · have whole : k * 2 ^ F = k * 2 ^ (F - place m E) * 2 ^ place m E := by
      rw [Nat.mul_assoc, Nat.pow_sub_mul_pow 2 coarser]
    rw [whole] at above ⊢
    apply Nat.mul_le_mul_right
    have := (Nat.div_lt_iff_lt_mul (Nat.two_pow_pos _)).mpr above
    omega

/-- One, in units of the least positive number. -/
@[irreducible] def oneUnits : Nat := 2 ^ 1074

theorem oneUnits_pos : 0 < oneUnits := by
  unfold oneUnits
  positivity

theorem oneUnits_eq {T : Nat} (inside : T ≤ 1074) : oneUnits = 2 ^ (1074 - T) * 2 ^ T := by
  unfold oneUnits
  generalize 1074 = last at inside ⊢
  exact (Nat.pow_sub_mul_pow 2 inside).symm

theorem two_pow_eq {T : Nat} (beyond : 1074 ≤ T) : 2 ^ T = 2 ^ (T - 1074) * oneUnits := by
  unfold oneUnits
  generalize 1074 = last at *
  exact (Nat.pow_sub_mul_pow 2 beyond).symm

theorem oneUnits_le {T : Nat} (beyond : 1074 ≤ T) : oneUnits ≤ 2 ^ T := by
  unfold oneUnits
  generalize 1074 = last at beyond ⊢
  exact Nat.pow_le_pow_right Nat.two_pos beyond

/-- The number is at least `n`, or it is infinite. -/
def Reaches (x : Float) (n : Nat) : Prop :=
  x = infinity ∨ ∃ p, parts? x = some p ∧ (n * oneUnits : Nat) ≤ p.units

theorem parts?_pack_zero (s : Sign) :
    parts? (.ofModel (.pack (.zero s))) = some ⟨s == .negative, 0, -1074⟩ :=
  parts?_pack (s := s) (e := 0#11) (m := 0#52) rfl

theorem finite_or_infinite {m T : Nat} (pos : 0 < m) (small : m < 2 ^ 53)
    (normal : T ≠ 0 → 2 ^ 52 ≤ m) :
    (Float.ofModel (.pack (.finite .positive m (T - 1074) pos)) = infinity ∧ 2046 ≤ T) ∨
      ∃ p, parts? (.ofModel (.pack (.finite .positive m (T - 1074) pos))) = some p ∧
        p.units = (m * 2 ^ T : Nat) := by
  rcases Nat.lt_or_ge T 2046 with below | above
  · right
    have shape : Canonical m ((T : Int) - 1074) := by
      refine ⟨small, by omega, by omega, ?_⟩
      rcases Nat.eq_zero_or_pos T with rfl | positive
      · exact .inr rfl
      · exact .inl (normal positive.ne')
    have exponent : ((T : Int) - 1074 + 1074).toNat = T := by omega
    refine ⟨_, parts?_pack_finite .positive pos shape, ?_⟩
    change ((magnitude m ((T : Int) - 1074) : Nat) : Int) = _
    rw [magnitude, exponent]
  · exact .inl ⟨pack_finite_large pos (by omega), above⟩

/-- What is left of a significand at a place is read as that many of the place. -/
theorem settle_or_infinite {r T : Nat} (small : r ≤ 2 ^ 53) (normal : T ≠ 0 → 2 ^ 52 ≤ r) :
    (Float.ofModel (.pack (settle .positive r T)) = infinity ∧ 2045 ≤ T) ∨
      ∃ p, parts? (.ofModel (.pack (settle .positive r T))) = some p ∧
        p.units = (r * 2 ^ T : Nat) := by
  unfold settle
  split
  · rename_i nothing
    right
    refine ⟨_, parts?_pack_zero .positive, ?_⟩
    rw [units_zero, nothing, Nat.zero_mul]
    rfl
  split
  · rename_i below
    rcases finite_or_infinite _ below normal with ⟨large, above⟩ | found
    · exact .inl ⟨large, by omega⟩
    · exact .inr found
  · have carried : r = 2 ^ 53 := by omega
    have doubled : r * 2 ^ T = 2 ^ 52 * 2 ^ (T + 1) := by
      rw [carried]
      ring
    rw [doubled]
    have top := finite_or_infinite (T := T + 1) (Nat.two_pow_pos 52)
      (Nat.pow_lt_pow_right (by decide) (by decide)) (fun _ => Nat.le_refl _)
    exact top.imp (And.imp_right (by omega)) id

theorem reaches_settle {r T n : Nat} (small : r ≤ 2 ^ 53) (normal : T ≠ 0 → 2 ^ 52 ≤ r)
    (reaches : n * oneUnits ≤ r * 2 ^ T) :
    Reaches (.ofModel (.pack (settle .positive r T))) n := by
  rcases settle_or_infinite small normal with ⟨large, _⟩ | ⟨p, found, units⟩
  · exact .inl large
  · exact .inr ⟨p, found, units ▸ Int.ofNat_le.mpr reaches⟩

/-- Rounding never falls below a whole number that a significand holds. -/
theorem reaches_round {m E n : Nat} (pos : 0 < m) (small : n ≤ 2 ^ 53)
    (reaches : n * oneUnits ≤ m * 2 ^ E) :
    Reaches (.ofModel (.pack (UnpackedFloat.round .binary64 .positive m (E - 1074)))) n := by
  obtain ⟨r, low, _, high, normal, _, rounded⟩ := round_eq .positive (E := E) pos
  rw [rounded]
  apply reaches_settle high normal
  rcases Nat.lt_or_ge 1074 (place m E) with beyond | inside
  · calc n * oneUnits ≤ 2 ^ 53 * oneUnits := Nat.mul_le_mul_right _ small
      _ ≤ 2 ^ 53 * 2 ^ (place m E - 1) := Nat.mul_le_mul_left _ (oneUnits_le (by omega))
      _ = 2 ^ 52 * 2 ^ place m E := by rw [← Nat.pow_add, ← Nat.pow_add]; congr 1; omega
      _ ≤ r * 2 ^ place m E := Nat.mul_le_mul_right _ (normal (by omega))
  · -- the whole number is a multiple of the last place
    rw [oneUnits_eq inside, ← Nat.mul_assoc] at reaches ⊢
    apply Nat.mul_le_mul_right
    exact Nat.le_trans ((Nat.le_div_iff_mul_le (Nat.two_pow_pos _)).mpr reaches) low

theorem reaches_zero (s : Sign) : Reaches (.ofModel (.pack (.zero s))) 0 := by
  right
  refine ⟨_, parts?_pack_zero s, ?_⟩
  rw [units_zero, Nat.zero_mul]
  exact Int.le_refl _

theorem reaches_normalize {M : Int} {E n : Nat} (s : Sign) (small : n ≤ 2 ^ 53)
    (reaches : ((n * oneUnits : Nat) : Int) ≤ M * 2 ^ E) :
    Reaches (.ofModel (.pack (UnpackedFloat.normalize .binary64 M (E - 1074) s))) n := by
  have scale : (0 : Int) < 2 ^ E := Int.pow_pos (by decide)
  unfold UnpackedFloat.normalize
  split
  · rename_i below
    have negative := Int.mul_neg_of_neg_of_pos (compare_lt_iff_lt.mp below) scale
    omega
  · rename_i same
    rw [compare_eq_iff_eq.mp same, Int.zero_mul] at reaches
    have : n = 0 := by
      have := oneUnits_pos
      rcases Nat.eq_zero_or_pos n with zero | pos
      · exact zero
      · have := Nat.mul_pos pos oneUnits_pos
        omega
    rw [this]
    exact reaches_zero s
  · rename_i above
    have positive := compare_gt_iff_gt.mp above
    obtain ⟨m, rfl⟩ := Int.eq_ofNat_of_zero_le (Int.le_of_lt positive)
    apply reaches_round (Int.natCast_pos.mp positive) small
    exact_mod_cast reaches

/-! ### Sums -/

theorem parts?_pack_of_canonical {u : UnpackedFloat} {p : Parts} (found : partsOf u = some p)
    (shape : Canonical p.significand p.exponent) : parts? (.ofModel (.pack u)) = some p := by
  cases u with
  | infinity | notANumber => contradiction
  | zero s =>
    rw [parts?_pack_zero]
    exact found
  | finite s m e pos =>
    cases found
    exact parts?_pack_finite s pos shape

theorem units_eq_apply (s : Sign) (m : Nat) (e : Int) :
    Parts.units ⟨s == .negative, m, e⟩ = s.apply m * 2 ^ (e + 1074).toNat := by
  cases s
  · change -((m * 2 ^ (e + 1074).toNat : Nat) : Int) = -(m : Int) * 2 ^ _
    push_cast
    ring
  · exact Nat.cast_mul ..

/-- A significand that is shifted for a lower exponent stands for the same number. -/
theorem apply_shiftLeft (s : Sign) (m : Nat) {D L : Nat} (below : L ≤ D) :
    s.apply ((m <<< (D - L) : Nat) : Int) * 2 ^ L = s.apply m * 2 ^ D := by
  have same : ((m <<< (D - L) : Nat) : Int) * 2 ^ L = m * 2 ^ D := by
    rw [Nat.shiftLeft_eq]
    push_cast
    rw [mul_assoc, ← pow_add, Nat.sub_add_cancel below]
  cases s with
  | positive => exact same
  | negative => rw [Sign.apply, Sign.apply, Int.neg_mul, same, Int.neg_mul]

/-- A sum is normalized from its exact value. -/
theorem add_finite_eq {s t : Sign} {m k : Nat} {d e : Int} (pos : 0 < m) (other : 0 < k)
    (left : -1074 ≤ d) (right : -1074 ≤ e) :
    ∃ (M : Int) (E : Nat),
      UnpackedFloat.add .binary64 (.finite s m d pos) (.finite t k e other) =
        UnpackedFloat.normalize .binary64 M (E - 1074) .positive ∧
      M * 2 ^ E = Parts.units ⟨s == .negative, m, d⟩ + Parts.units ⟨t == .negative, k, e⟩ := by
  obtain ⟨D, rfl⟩ : ∃ D : Nat, d = (D : Int) - 1074 := ⟨(d + 1074).toNat, by omega⟩
  obtain ⟨E, rfl⟩ : ∃ E : Nat, e = (E : Int) - 1074 := ⟨(e + 1074).toNat, by omega⟩
  have least : min ((D : Int) - 1074) ((E : Int) - 1074) = (min D E : Nat) - 1074 := by omega
  have left_shift : ((D : Int) - 1074 - ((min D E : Nat) - 1074)).toNat = D - min D E := by omega
  have right_shift : ((E : Int) - 1074 - ((min D E : Nat) - 1074)).toNat = E - min D E := by omega
  have left_exponent : ((D : Int) - 1074 + 1074).toNat = D := by omega
  have right_exponent : ((E : Int) - 1074 + 1074).toNat = E := by omega
  refine ⟨s.apply ((m <<< (D - min D E) : Nat) : Int) + t.apply ((k <<< (E - min D E) : Nat) : Int),
    min D E, ?_, ?_⟩
  · simp only [UnpackedFloat.add, decreaseExponent]
    rw [least, left_shift, right_shift]
  · rw [units_eq_apply, units_eq_apply, left_exponent, right_exponent, Int.add_mul,
      apply_shiftLeft s m (Nat.min_le_left ..), apply_shiftLeft t k (Nat.min_le_right ..)]

theorem reaches_add_unpacked {u v : UnpackedFloat} {p q : Parts} {n : Nat}
    (left : partsOf u = some p) (right : partsOf v = some q)
    (left_shape : Canonical p.significand p.exponent)
    (right_shape : Canonical q.significand q.exponent) (small : n ≤ 2 ^ 53)
    (reaches : ((n * oneUnits : Nat) : Int) ≤ p.units + q.units) :
    Reaches (.ofModel (.pack (u.add .binary64 v))) n := by
  cases u with
  | infinity | notANumber => contradiction
  | zero s =>
    cases left
    rw [units_zero, Int.zero_add] at reaches
    cases v with
    | infinity | notANumber => contradiction
    | zero t =>
      cases right
      rw [units_zero] at reaches
      have nothing : n = 0 := by
        rcases Nat.eq_zero_or_pos n with zero | pos
        · exact zero
        · have := Nat.mul_pos pos oneUnits_pos
          omega
      rw [nothing, UnpackedFloat.add]
      split <;> exact reaches_zero _
    | finite t k e pos => exact .inr ⟨q, parts?_pack_of_canonical right right_shape, reaches⟩
  | finite s m d pos =>
    cases v with
    | infinity | notANumber => contradiction
    | zero t =>
      cases right
      rw [units_zero, Int.add_zero] at reaches
      exact .inr ⟨p, parts?_pack_of_canonical left left_shape, reaches⟩
    | finite t k e other =>
      cases left
      cases right
      obtain ⟨M, E, normalized, exact_sum⟩ :=
        add_finite_eq (s := s) (t := t) pos other left_shape.least right_shape.least
      rw [normalized]
      exact reaches_normalize _ small (exact_sum ▸ reaches)

theorem sub_eq_add_neg (u v : UnpackedFloat) : u.sub .binary64 v = u.add .binary64 v.neg := by
  cases u <;> cases v <;> try rfl
  rename_i s m d pos t k e other
  have applied (n : Nat) : (-t).apply (n : Int) = -t.apply n := by
    cases t
    · exact (Int.neg_neg _).symm
    · rfl
  simp only [UnpackedFloat.sub, UnpackedFloat.neg, UnpackedFloat.add, applied]
  rfl

theorem partsOf_neg {u : UnpackedFloat} {p : Parts} (found : partsOf u = some p) :
    partsOf u.neg = some { p with negative := !p.negative } := by
  cases u with
  | infinity | notANumber => contradiction
  | zero s | finite s =>
    cases found
    cases s <;> rfl

theorem units_not (p : Parts) : Parts.units { p with negative := !p.negative } = -p.units := by
  obtain ⟨negative, m, e⟩ := p
  cases negative
  · rfl
  · exact (Int.neg_neg _).symm

variable {x y : Float} {p q : Parts} {n : Nat}

theorem reaches_add (left : parts? x = some p) (right : parts? y = some q) (small : n ≤ 2 ^ 53)
    (reaches : ((n * oneUnits : Nat) : Int) ≤ p.units + q.units) : Reaches (x + y) n := by
  have left_shape := canonical_of_parts? left
  have right_shape := canonical_of_parts? right
  rw [parts?_eq] at left right
  rw [add_eq_pack]
  exact reaches_add_unpacked left right left_shape right_shape small reaches

theorem reaches_sub (left : parts? x = some p) (right : parts? y = some q) (small : n ≤ 2 ^ 53)
    (reaches : ((n * oneUnits : Nat) : Int) ≤ p.units - q.units) : Reaches (x - y) n := by
  have left_shape := canonical_of_parts? left
  have right_shape := canonical_of_parts? right
  rw [parts?_eq] at left right
  change Reaches (.ofModel (.pack (.sub .binary64 x.toModel.unpack y.toModel.unpack))) n
  rw [sub_eq_add_neg]
  refine reaches_add_unpacked left (partsOf_neg right) left_shape right_shape small ?_
  rw [units_not]
  exact reaches

end Binning.Binary64
