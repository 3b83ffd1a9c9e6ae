import Binning.Proofs.Binary64.Rounding

/-! Zeros, infinities and NaN in arithmetic and comparison. A zero is neutral in
sums whatever its sign, it makes a product of a finite number vanish, and with
an infinity it gives NaN, which no later sum or comparison forgets. -/
namespace Binning.Binary64
open Float.Model Float.Model.UnpackedFloat

variable {x y z : Float}

/-! ### Packed numbers -/

@[simp] theorem unpack_pack_zero (s : Sign) : (Float.Model.pack (.zero s)).unpack = .zero s := by
  cases s <;> rfl

@[simp] theorem unpack_pack_infinity (s : Sign) :
    (Float.Model.pack (.infinity s)).unpack = .infinity s := by
  cases s <;> rfl

@[simp] theorem unpack_pack_nan : (Float.Model.pack .notANumber).unpack = .notANumber := rfl

theorem eq_of_isNegative_eq {s t : Sign} (same : (s == .negative) = (t == .negative)) : s = t := by
  cases s <;> cases t <;> first | rfl | contradiction

theorem eq_of_partsOf_eq {u v : UnpackedFloat} {p : Parts} (left : partsOf u = some p)
    (right : partsOf v = some p) : u = v := by
  cases u with
  | infinity | notANumber => contradiction
  | zero s =>
    cases left
    cases v with
    | infinity | notANumber => contradiction
    | zero t =>
      obtain ⟨sign, -⟩ := Parts.mk.inj (Option.some.inj right)
      rw [eq_of_isNegative_eq sign]
    | finite t k e pos =>
      obtain ⟨-, none_left, -⟩ := Parts.mk.inj (Option.some.inj right)
      exact absurd none_left pos.ne'
  | finite s m d pos =>
    cases left
    cases v with
    | infinity | notANumber => contradiction
    | zero t =>
      obtain ⟨-, none_left, -⟩ := Parts.mk.inj (Option.some.inj right)
      exact absurd none_left.symm pos.ne'
    | finite t k e other =>
      obtain ⟨sign, rfl, rfl⟩ := Parts.mk.inj (Option.some.inj right)
      rw [eq_of_isNegative_eq sign]

theorem unpack_pack_of_canonical {u : UnpackedFloat} {p : Parts} (found : partsOf u = some p)
    (shape : Canonical p.significand p.exponent) : (Float.Model.pack u).unpack = u :=
  eq_of_partsOf_eq ((parts?_eq _).symm.trans (parts?_pack_of_canonical found shape)) found

theorem isFinite_eq (x : Float) : isFinite x = (partsOf x.toModel.unpack).isSome := by
  rw [isFinite, parts?_eq]

theorem isNaN_iff : x.isNaN = true ↔ x.toModel.unpack = .notANumber := by
  change x.toModel.unpack.isNaN = true ↔ _
  cases x.toModel.unpack <;> simp [UnpackedFloat.isNaN]

theorem beq_eq (x y : Float) : (x == y) = x.toModel.unpack.beq y.toModel.unpack := rfl

theorem unpack_add (x y : Float) : (x + y).toModel.unpack =
    (Float.Model.pack (.add .binary64 x.toModel.unpack y.toModel.unpack)).unpack := rfl

theorem unpack_sub (x y : Float) : (x - y).toModel.unpack =
    (Float.Model.pack (.sub .binary64 x.toModel.unpack y.toModel.unpack)).unpack := rfl

theorem unpack_mul (x y : Float) : (x * y).toModel.unpack =
    (Float.Model.pack (.mul .binary64 x.toModel.unpack y.toModel.unpack)).unpack := rfl

theorem unpack_div (x y : Float) : (x / y).toModel.unpack =
    (Float.Model.pack (.div .binary64 x.toModel.unpack y.toModel.unpack)).unpack := rfl

/-! ### Comparison -/

theorem beq_zero_iff : (x == 0) = true ↔ ∃ s, x.toModel.unpack = .zero s := by
  rw [beq_eq, unpack_zero]
  cases x.toModel.unpack with
  | zero s => exact ⟨fun _ => ⟨s, rfl⟩, fun _ => rfl⟩
  | notANumber => exact ⟨fun same => absurd (show false = true from same) (by decide), nofun⟩
  | infinity s | finite s =>
    cases s <;> exact ⟨fun same => absurd (show false = true from same) (by decide), nofun⟩

/-- Zeros are not told apart. -/
theorem zero_unpacked_beq (s t : Sign) (u : UnpackedFloat) :
    (UnpackedFloat.zero s).beq u = (UnpackedFloat.zero t).beq u := by
  cases u with
  | notANumber | zero => rfl
  | infinity s | finite s => cases s <;> rfl

theorem zero_beq_congr (left : (x == 0) = true) (right : (y == 0) = true) (z : Float) :
    (x == z) = (y == z) := by
  obtain ⟨s, first⟩ := beq_zero_iff.mp left
  obtain ⟨t, second⟩ := beq_zero_iff.mp right
  rw [beq_eq, beq_eq, first, second]
  exact zero_unpacked_beq s t _

theorem unpacked_beq_self {u : UnpackedFloat} (defined : u ≠ .notANumber) : u.beq u = true := by
  cases u with
  | notANumber => contradiction
  | zero => rfl
  | infinity s => cases s <;> rfl
  | finite s m e =>
    have same : (compare e e).then (compare m m) = .eq := by
      rw [compare_eq_iff_eq.mpr rfl, compare_eq_iff_eq.mpr rfl]
      rfl
    cases s with
    | negative =>
      change (some ((compare e e).then (compare m m)).swap == some .eq) = true
      rw [same]
      rfl
    | positive =>
      change (some ((compare e e).then (compare m m)) == some .eq) = true
      rw [same]
      rfl

theorem beq_self_iff : (x == x) = true ↔ x.isNaN = false := by
  rw [← Bool.not_eq_true, isNaN_iff, beq_eq]
  constructor
  · intro same nan
    rw [nan] at same
    contradiction
  · exact unpacked_beq_self

theorem beq_of_isNaN (nan : x.isNaN = true) (y : Float) : (x == y) = false := by
  rw [beq_eq, isNaN_iff.mp nan]
  rfl

theorem not_isNaN_of_beq (same : (x == y) = true) : x.isNaN = false := by
  rw [← Bool.not_eq_true]
  intro nan
  rw [beq_of_isNaN nan] at same
  contradiction

theorem eq_of_unpacked_beq {u v : UnpackedFloat} (same : u.beq v = true) :
    u = v ∨ ∃ s t, u = .zero s ∧ v = .zero t := by
  have differ (unlike : false = true) : u = v ∨ ∃ s t, u = .zero s ∧ v = .zero t :=
    absurd unlike (by decide)
  cases u with
  | notANumber => exact differ same
  | zero s =>
    cases v with
    | zero t => exact .inr ⟨s, t, rfl, rfl⟩
    | notANumber => exact differ same
    | infinity t | finite t => cases t <;> exact differ same
  | infinity s =>
    cases v with
    | infinity t => cases s <;> cases t <;> first | exact .inl rfl | exact differ same
    | notANumber | zero | finite => cases s <;> exact differ same
  | finite s m d pos =>
    cases v with
    | notANumber => cases s <;> exact differ same
    | infinity t | zero t => cases s <;> cases t <;> exact differ same
    | finite t k e other =>
      have equal (ordered : (compare d e).then (compare m k) = .eq) : d = e ∧ m = k :=
        (Ordering.then_eq_eq.mp ordered).imp compare_eq_iff_eq.mp compare_eq_iff_eq.mp
      cases s with
      | negative =>
        cases t with
        | positive => exact differ same
        | negative =>
          have swapped := Option.some.inj (beq_iff_eq.mp same)
          obtain ⟨rfl, rfl⟩ := equal (Ordering.swap_eq_eq.mp swapped)
          exact .inl rfl
      | positive =>
        cases t with
        | negative => exact differ same
        | positive =>
          obtain ⟨rfl, rfl⟩ := equal (Option.some.inj (beq_iff_eq.mp same))
          exact .inl rfl

/-- Equal numbers are the same, or both of them are zero. -/
theorem eq_or_zero_of_beq (same : (x == y) = true) :
    x = y ∨ (x == 0) = true ∧ (y == 0) = true := by
  rw [beq_zero_iff, beq_zero_iff]
  rcases eq_of_unpacked_beq same with equal | ⟨s, t, left, right⟩
  · exact .inl (eq_of_unpack_eq equal)
  · exact .inr ⟨⟨s, left⟩, t, right⟩

theorem beq_symm (same : (x == y) = true) : (y == x) = true := by
  rcases eq_or_zero_of_beq same with rfl | ⟨left, right⟩
  · exact same
  · exact (zero_beq_congr right left x).trans (beq_self_iff.mpr (not_isNaN_of_beq same))

theorem zero_beq_zero : ((0 : Float) == 0) = true := beq_zero_iff.mpr ⟨_, unpack_zero⟩

/-! ### Sums -/

theorem isNaN_add_left (nan : x.isNaN = true) (y : Float) : (x + y).isNaN = true := by
  rw [isNaN_iff] at *
  rw [unpack_add, nan]
  exact unpack_pack_nan

theorem isNaN_add_right (x : Float) (nan : y.isNaN = true) : (x + y).isNaN = true := by
  rw [isNaN_iff] at *
  rw [unpack_add, nan]
  cases x.toModel.unpack <;> exact unpack_pack_nan

theorem add_zeros (s t : Sign) :
    ∃ r, UnpackedFloat.add .binary64 (.zero s) (.zero t) = .zero r := by
  cases s <;> cases t <;> exact ⟨_, rfl⟩

/-- A zero is neutral, but for the sign of zero. -/
theorem add_zero_or (x : Float) (zero : (y == 0) = true) :
    x + y = x ∨ (x == 0) = true ∧ (x + y == 0) = true := by
  obtain ⟨t, second⟩ := beq_zero_iff.mp zero
  rw [add_eq_pack, second, beq_zero_iff, beq_zero_iff]
  cases first : x.toModel.unpack with
  | notANumber | infinity | finite =>
    left
    apply congrArg Float.ofModel
    rw [← pack_unpack x.toModel, first]
    rfl
  | zero s =>
    right
    obtain ⟨r, sum⟩ := add_zeros s t
    exact ⟨⟨s, rfl⟩, r, by rw [sum, unpack_pack_zero]⟩

theorem zero_add_or_zero (zero : (x == 0) = true) (y : Float) :
    x + y = y ∨ (y == 0) = true ∧ (x + y == 0) = true := by
  obtain ⟨s, first⟩ := beq_zero_iff.mp zero
  rw [add_eq_pack, first, beq_zero_iff, beq_zero_iff]
  cases second : y.toModel.unpack with
  | notANumber | infinity | finite =>
    left
    apply congrArg Float.ofModel
    rw [← pack_unpack y.toModel, second]
    rfl
  | zero t =>
    right
    obtain ⟨r, sum⟩ := add_zeros s t
    exact ⟨⟨t, rfl⟩, r, by rw [sum, unpack_pack_zero]⟩

theorem add_zero_beq (zero : (y == 0) = true) (z : Float) : (x + y == z) = (x == z) := by
  rcases add_zero_or x zero with same | ⟨left, sum⟩
  · rw [same]
  · exact zero_beq_congr sum left z

theorem zero_add_beq (zero : (x == 0) = true) (z : Float) : (x + y == z) = (y == z) := by
  rcases zero_add_or_zero zero y with same | ⟨right, sum⟩
  · rw [same]
  · exact zero_beq_congr sum right z

/-! ### Products and quotients -/

theorem zero_mul_beq (zero : (x == 0) = true) (finite : isFinite y = true) :
    (x * y == 0) = true := by
  obtain ⟨s, first⟩ := beq_zero_iff.mp zero
  rw [isFinite_eq] at finite
  rw [beq_zero_iff, unpack_mul, first]
  cases second : y.toModel.unpack with
  | notANumber | infinity =>
    rw [second] at finite
    contradiction
  | zero | finite => exact ⟨_, unpack_pack_zero _⟩

theorem mul_zero_beq (finite : isFinite x = true) (zero : (y == 0) = true) :
    (x * y == 0) = true := by
  obtain ⟨t, second⟩ := beq_zero_iff.mp zero
  rw [isFinite_eq] at finite
  rw [beq_zero_iff, unpack_mul, second]
  cases first : x.toModel.unpack with
  | notANumber | infinity =>
    rw [first] at finite
    contradiction
  | zero | finite => exact ⟨_, unpack_pack_zero _⟩

theorem isNaN_zero_mul (zero : (x == 0) = true) (unbounded : isFinite y = false) :
    (x * y).isNaN = true := by
  obtain ⟨s, first⟩ := beq_zero_iff.mp zero
  rw [isFinite_eq] at unbounded
  rw [isNaN_iff, unpack_mul, first]
  cases second : y.toModel.unpack with
  | notANumber | infinity => exact unpack_pack_nan
  | zero | finite =>
    rw [second] at unbounded
    contradiction

/-- Zeros have the same quotients. -/
theorem zero_div_beq (left : (x == 0) = true) (right : (y == 0) = true) (z w : Float) :
    (x / z == w) = (y / z == w) := by
  obtain ⟨s, first⟩ := beq_zero_iff.mp left
  obtain ⟨t, second⟩ := beq_zero_iff.mp right
  rw [beq_eq, beq_eq, unpack_div, unpack_div, first, second]
  cases z.toModel.unpack with
  | notANumber | zero => rfl
  | infinity r | finite r =>
    change (Float.Model.pack (.zero (s / r))).unpack.beq _ =
      (Float.Model.pack (.zero (t / r))).unpack.beq _
    rw [unpack_pack_zero, unpack_pack_zero]
    exact zero_unpacked_beq ..

theorem div_of_left_nan (u : UnpackedFloat) :
    UnpackedFloat.div .binary64 .notANumber u = .notANumber := rfl

theorem div_infinity_infinity (s t : Sign) :
    UnpackedFloat.div .binary64 (.infinity s) (.infinity t) = .notANumber := rfl

/-- A quotient by an infinity or NaN does not undo a product with it. -/
theorem isFinite_of_mul_div (same : (x * y / x == y) = true) : isFinite x = true := by
  have defined := not_isNaN_of_beq same
  rw [← Bool.not_eq_true, isNaN_iff, unpack_div, unpack_mul] at defined
  rw [isFinite_eq]
  cases first : x.toModel.unpack with
  | zero | finite => rfl
  | notANumber =>
    have quotient (u : UnpackedFloat) :
        UnpackedFloat.div .binary64 u .notANumber = .notANumber := by
      cases u <;> rfl
    exact absurd (by rw [first, quotient, unpack_pack_nan]) defined
  | infinity s =>
    refine absurd ?_ defined
    have product (u : UnpackedFloat) : UnpackedFloat.mul .binary64 (.infinity s) u = .notANumber ∨
        ∃ t, UnpackedFloat.mul .binary64 (.infinity s) u = .infinity t := by
      cases u with
      | notANumber | zero => exact .inl rfl
      | infinity | finite => exact .inr ⟨_, rfl⟩
    rw [first]
    rcases product y.toModel.unpack with nan | ⟨t, unbounded⟩
    · rw [nan, unpack_pack_nan, div_of_left_nan, unpack_pack_nan]
    · rw [unbounded, unpack_pack_infinity, div_infinity_infinity, unpack_pack_nan]

/-! ### Squares -/

theorem infinity_mul_infinity (s t : Sign) :
    UnpackedFloat.mul .binary64 (.infinity s) (.infinity t) = .infinity (s * t) := rfl

theorem zero_mul_zero (s t : Sign) :
    UnpackedFloat.mul .binary64 (.zero s) (.zero t) = .zero (s * t) := rfl

theorem isFinite_of_square (finite : isFinite (x * x) = true) : isFinite x = true := by
  rw [isFinite_eq] at *
  rw [unpack_mul] at finite
  cases number : x.toModel.unpack with
  | zero | finite => rfl
  | notANumber =>
    rw [number] at finite
    exact absurd finite (by decide)
  | infinity s =>
    rw [number, infinity_mul_infinity, unpack_pack_infinity] at finite
    contradiction

theorem not_isNaN_of_isFinite (finite : isFinite x = true) : x.isNaN = false := by
  rw [← Bool.not_eq_true, isNaN_iff]
  intro nan
  rw [isFinite_eq, nan] at finite
  contradiction

theorem defined_of_parts? {p : Parts} (found : parts? x = some p) : x.isNaN = false :=
  not_isNaN_of_isFinite (Option.isSome_of_eq_some found)

theorem isFinite_of_beq_zero (zero : (x == 0) = true) : isFinite x = true := by
  obtain ⟨s, number⟩ := beq_zero_iff.mp zero
  rw [isFinite_eq, number]
  rfl

theorem canonical_of_unpack {s : Sign} {m : Nat} {e : Int} {pos : 0 < m}
    (number : x.toModel.unpack = .finite s m e pos) : Canonical m e := by
  have found : parts? x = some ⟨s == .negative, m, e⟩ := by
    rw [parts?_eq, number]
    rfl
  exact canonical_of_parts? found

theorem sub_zeros (s t : Sign) :
    ∃ r, UnpackedFloat.sub .binary64 (.zero s) (.zero t) = .zero r := by
  cases s <;> cases t <;> exact ⟨_, rfl⟩

/-- The negative has the same square. -/
theorem isFinite_square_zero_sub (zero : (y == 0) = true) (x : Float) :
    isFinite ((y - x) * (y - x)) = isFinite (x * x) := by
  obtain ⟨s, first⟩ := beq_zero_iff.mp zero
  rw [isFinite_eq, isFinite_eq, unpack_mul, unpack_mul, unpack_sub, first]
  cases second : x.toModel.unpack with
  | notANumber =>
    change (partsOf (Float.Model.pack (.mul .binary64 (Float.Model.pack .notANumber).unpack
      (Float.Model.pack .notANumber).unpack)).unpack).isSome = _
    rw [unpack_pack_nan]
  | infinity t =>
    change (partsOf (Float.Model.pack (.mul .binary64 (Float.Model.pack (.infinity (-t))).unpack
      (Float.Model.pack (.infinity (-t))).unpack)).unpack).isSome = _
    rw [unpack_pack_infinity, infinity_mul_infinity, infinity_mul_infinity, unpack_pack_infinity,
      unpack_pack_infinity]
    rfl
  | zero t =>
    obtain ⟨r, difference⟩ := sub_zeros s t
    rw [difference, unpack_pack_zero, zero_mul_zero, zero_mul_zero, unpack_pack_zero,
      unpack_pack_zero]
    rfl
  | finite t m e pos =>
    have negative : (Float.Model.pack (.finite (-t) m e pos)).unpack = .finite (-t) m e pos :=
      unpack_pack_of_canonical rfl (canonical_of_unpack second)
    have sign : -t * -t = t * t := by cases t <;> rfl
    have square (r : Sign) : UnpackedFloat.mul .binary64 (.finite r m e pos) (.finite r m e pos) =
        .roundWithAccuracy .binary64 (r * r) (m * m) (e + e) .exact := rfl
    change (partsOf (Float.Model.pack (.mul .binary64
      (Float.Model.pack (.finite (-t) m e pos)).unpack
      (Float.Model.pack (.finite (-t) m e pos)).unpack)).unpack).isSome = _
    rw [negative, square, square, sign]

theorem sub_zero_zero (left : (x == 0) = true) (right : (y == 0) = true) :
    (x - y == 0) = true := by
  obtain ⟨s, first⟩ := beq_zero_iff.mp left
  obtain ⟨t, second⟩ := beq_zero_iff.mp right
  obtain ⟨r, difference⟩ := sub_zeros s t
  exact beq_zero_iff.mpr ⟨r, by rw [unpack_sub, first, second, difference, unpack_pack_zero]⟩

/-- Equal finite numbers have no difference. -/
theorem sub_beq_zero (same : (x == y) = true) (finite : isFinite x = true) :
    (x - y == 0) = true := by
  rcases eq_or_zero_of_beq same with rfl | ⟨left, right⟩
  · rw [isFinite_eq] at finite
    cases number : x.toModel.unpack with
    | notANumber | infinity =>
      rw [number] at finite
      contradiction
    | zero s => exact sub_zero_zero (beq_zero_iff.mpr ⟨s, number⟩) (beq_zero_iff.mpr ⟨s, number⟩)
    | finite s m e pos =>
      have cancelled : UnpackedFloat.sub .binary64 (.finite s m e pos) (.finite s m e pos) =
          .zero .positive := by
        change UnpackedFloat.normalize .binary64 (_ - _) _ _ = _
        rw [Int.sub_self]
        rfl
      exact beq_zero_iff.mpr ⟨_, by rw [unpack_sub, number, cancelled, unpack_pack_zero]⟩
  · exact sub_zero_zero left right

end Binning.Binary64
