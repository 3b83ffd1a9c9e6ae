import Binning.Proofs.Binary64

/-! A finite number in units of the least positive number, a whole number of
them. Numbers are ordered as their units are, and a number that has the shape of
a binary64 number is packed without loss. -/
namespace Binning.Binary64
open Float.Model Float.Model.UnpackedFloat

/-- The parts of an unpacked number. -/
def partsOf : UnpackedFloat → Option Parts
  | .zero s => some ⟨s == .negative, 0, -1074⟩
  | .finite s m e _ => some ⟨s == .negative, m, e⟩
  | .infinity _ | .notANumber => none

theorem toNat_append {m n : Nat} (x : BitVec m) (y : BitVec n) :
    (x ++ y).toNat = x.toNat * 2 ^ n + y.toNat := by
  rw [BitVec.toNat_append, ← Nat.shiftLeft_add_eq_or_of_lt y.isLt, Nat.shiftLeft_eq]

theorem toNat_toBitVec (s : Sign) : s.toBitVec.toNat = (s == .negative).toNat := by
  cases s <;> rfl

theorem toNat_packComponents (s : Sign) (e : BitVec 11) (m : BitVec 52) :
    (packComponents .binary64 s e m).toNat =
      (s == .negative).toNat * 2 ^ 63 + e.toNat * 2 ^ 52 + m.toNat := by
  rw [packComponents, toNat_append, toNat_append, toNat_toBitVec]
  ring

/-- A word is read as the components that it is packed from. -/
theorem partsOf_unpack (s : Sign) (e : BitVec 11) (m : BitVec 52) :
    partsOf (UnpackedFloat.unpack .binary64 (packComponents .binary64 s e m)) =
      if e.toNat = 2047 then none
      else if e.toNat = 0 then some ⟨s == .negative, m.toNat, -1074⟩
      else some ⟨s == .negative, 2 ^ 52 + m.toNat, e.toNat - 1075⟩ := by
  have implicit : (1#1 ++ m).toNat = 2 ^ 52 + m.toNat := toNat_append 1#1 m
  have top : e = -1#_ ↔ e.toNat = 2047 := BitVec.toNat_inj.symm
  have least : e = 0#_ ↔ e.toNat = 0 := BitVec.toNat_inj.symm
  simp only [UnpackedFloat.unpack, unpackExponent_packComponents, unpackMantissa_packComponents,
    unpackSign_packComponents, Sign.ofBitVec_toBitVec, top, least, implicit]
  split
  · split <;> rfl
  split
  · rename_i subnormal
    rw [subnormal]
    split
    · rename_i nothing
      rw [nothing]
      rfl
    · rfl
  · rfl

theorem exists_components (x : Float) :
    ∃ s e m, x.toModel.toBits.toBitVec = packComponents .binary64 s e m :=
  ⟨_, _, _, (@packComponents_unpackSign_unpackExponent_unpackMantissa .binary64 _).symm⟩

theorem parts?_eq (x : Float) : parts? x = partsOf x.toModel.unpack := by
  obtain ⟨s, e, m, packed⟩ := exists_components x
  have exponent : e.toNat < 2048 := e.isLt
  have fraction : m.toNat < 2 ^ 52 := m.isLt
  have bits : x.toBits.toNat = _ :=
    (congrArg BitVec.toNat packed).trans (toNat_packComponents s e m)
  have sign : decide (0x8000000000000000 ≤ x.toBits.toNat) = (s == .negative) := by
    cases s
    · exact decide_eq_true (bits ▸ Nat.le_trans (Nat.le_add_right _ _) (Nat.le_add_right _ _))
    · apply decide_eq_false
      have : ((Sign.positive == Sign.negative)).toNat = 0 := rfl
      omega
  have field : x.toBits.toNat / 0x10000000000000 % 0x800 = e.toNat := by omega
  have rest : x.toBits.toNat % 0x10000000000000 = m.toNat := by omega
  simp only [parts?, Float.Model.unpack, sign, field, rest, packed, partsOf_unpack]
  rfl

/-- The number `m * 2 ^ e` in units of the least positive number. -/
def magnitude (m : Nat) (e : Int) : Nat := m * 2 ^ (e + 1074).toNat

def Parts.units (p : Parts) : Int := p.withSign (magnitude p.significand p.exponent)

/-- The significand and exponent of a finite number. -/
structure Canonical (m : Nat) (e : Int) : Prop where
  significand : m < 2 ^ 53
  least : -1074 ≤ e
  greatest : e ≤ 971
  normal : 2 ^ 52 ≤ m ∨ e = -1074

theorem canonical_of_parts? {x : Float} {p : Parts} (found : parts? x = some p) :
    Canonical p.significand p.exponent := by
  have fraction : x.toBits.toNat % 0x10000000000000 < 0x10000000000000 := Nat.mod_lt _ (by decide)
  have field : x.toBits.toNat / 0x10000000000000 % 0x800 < 0x800 := Nat.mod_lt _ (by decide)
  simp only [parts?] at found
  generalize x.toBits.toNat % 0x10000000000000 = f at *
  generalize x.toBits.toNat / 0x10000000000000 % 0x800 = e at *
  split at found
  · contradiction
  split at found
  · cases found
    exact ⟨by simp only; omega, Int.le_refl _, (by decide : (-1074 : Int) ≤ 971), .inr rfl⟩
  · cases found
    refine ⟨?_, ?_, ?_, .inl (Nat.le_add_right ..)⟩ <;> (simp only; omega)

theorem magnitude_pos {m : Nat} (positive : 0 < m) (e : Int) : 0 < magnitude m e :=
  Nat.mul_pos positive (Nat.two_pow_pos _)

theorem magnitude_lt_magnitude {m n : Nat} {d e : Int} (left : Canonical m d)
    (right : Canonical n e) (lower : d < e) : magnitude m d < magnitude n e := by
  have least := left.least
  have large : 2 ^ 52 ≤ n := right.normal.resolve_right (by omega)
  calc m * 2 ^ (d + 1074).toNat
      < 2 ^ 53 * 2 ^ (d + 1074).toNat :=
        Nat.mul_lt_mul_of_pos_right left.significand (Nat.two_pow_pos _)
    _ = 2 ^ 52 * 2 ^ ((d + 1074).toNat + 1) := by ring
    _ ≤ 2 ^ 52 * 2 ^ (e + 1074).toNat :=
        Nat.mul_le_mul_left _ (Nat.pow_le_pow_right (by decide) (by omega))
    _ ≤ n * 2 ^ (e + 1074).toNat := Nat.mul_le_mul_right _ large

theorem compare_magnitude {m n : Nat} {d e : Int} (left : Canonical m d) (right : Canonical n e) :
    (compare d e).then (compare m n) = compare (magnitude m d) (magnitude n e) := by
  rcases Int.lt_trichotomy d e with lower | rfl | higher
  · rw [compare_lt_iff_lt.mpr lower,
      compare_lt_iff_lt.mpr (magnitude_lt_magnitude left right lower)]
    rfl
  · have scale : 0 < 2 ^ (d + 1074).toNat := Nat.two_pow_pos _
    rw [compare_eq_iff_eq.mpr rfl, Ordering.eq_then]
    simp only [magnitude, compare, compareOfLessAndEq, Nat.mul_lt_mul_right scale,
      Nat.mul_right_cancel_iff scale]
  · rw [compare_gt_iff_gt.mpr higher,
      compare_gt_iff_gt.mpr (magnitude_lt_magnitude right left higher)]
    rfl

@[simp] theorem units_zero (negative : Bool) (e : Int) : Parts.units ⟨negative, 0, e⟩ = 0 := by
  cases negative <;> simp [Parts.units, Parts.withSign, magnitude]

theorem compare_neg (a b : Int) : compare (-a) (-b) = (compare a b).swap := by
  rw [← Std.OrientedCmp.eq_swap]
  simp only [compare, compareOfLessAndEq, Int.neg_lt_neg_iff, Int.neg_inj, eq_comm]

theorem compare_natCast (m n : Nat) : compare (m : Int) n = compare m n := by
  simp only [compare, compareOfLessAndEq, Int.ofNat_lt, Int.natCast_inj]

theorem compare_eq {x y : Float} {p q : Parts} (left : parts? x = some p)
    (right : parts? y = some q) :
    x.toModel.unpack.compare y.toModel.unpack = some (compare p.units q.units) := by
  have left_canonical := canonical_of_parts? left
  have right_canonical := canonical_of_parts? right
  rw [parts?_eq] at left right
  generalize x.toModel.unpack = u at left
  generalize y.toModel.unpack = v at right
  cases u with
  | infinity | notANumber => contradiction
  | zero s =>
    cases left
    rw [units_zero]
    cases v with
    | infinity | notANumber => contradiction
    | zero t =>
      cases right
      rw [units_zero]
      rfl
    | finite t n e pos =>
      cases right
      have positive := Int.natCast_pos.mpr (magnitude_pos pos e)
      cases t with
      | positive => exact congrArg some (compare_lt_iff_lt.mpr positive).symm
      | negative => exact congrArg some (compare_gt_iff_gt.mpr (Int.neg_neg_of_pos positive)).symm
  | finite s m d pos =>
    cases left
    have positive := Int.natCast_pos.mpr (magnitude_pos pos d)
    cases v with
    | infinity | notANumber => contradiction
    | zero t =>
      cases right
      rw [units_zero]
      cases s with
      | positive => exact congrArg some (compare_gt_iff_gt.mpr positive).symm
      | negative => exact congrArg some (compare_lt_iff_lt.mpr (Int.neg_neg_of_pos positive)).symm
    | finite t n e pos =>
      cases right
      have other := Int.natCast_pos.mpr (magnitude_pos pos e)
      have same := compare_magnitude left_canonical right_canonical
      cases s <;> cases t
      · change some (Ordering.swap _) =
          some (compare (-(magnitude m d : Int)) (-(magnitude n e : Int)))
        rw [same, compare_neg, compare_natCast]
      · have lower := Int.lt_trans (Int.neg_neg_of_pos positive) other
        exact congrArg some (compare_lt_iff_lt.mpr lower).symm
      · have lower := Int.lt_trans (Int.neg_neg_of_pos other) positive
        exact congrArg some (compare_gt_iff_gt.mpr lower).symm
      · change some _ = some (compare (magnitude m d : Int) (magnitude n e : Int))
        rw [same, compare_natCast]

theorem lt_iff {x y : Float} {p q : Parts} (left : parts? x = some p)
    (right : parts? y = some q) : x < y ↔ p.units < q.units := by
  have same := compare_eq left right
  change (decide (x.toModel.unpack.lt y.toModel.unpack = true)) = true ↔ _
  rw [decide_eq_true_iff, UnpackedFloat.lt, same, beq_iff_eq, Option.some_inj, compare_lt_iff_lt]

theorem le_iff {x y : Float} {p q : Parts} (left : parts? x = some p)
    (right : parts? y = some q) : x ≤ y ↔ p.units ≤ q.units := by
  have same := compare_eq left right
  change (decide (x.toModel.unpack.le y.toModel.unpack = true)) = true ↔ _
  rw [decide_eq_true_iff, UnpackedFloat.le, same, Option.any_some, Std.isLE_compare]

/-! ### Packing -/

theorem parts?_pack {u : UnpackedFloat} {s : Sign} {e : BitVec 11} {m : BitVec 52}
    (packed : UnpackedFloat.pack .binary64 u = packComponents .binary64 s e m) :
    parts? (.ofModel (.pack u)) =
      if e.toNat = 2047 then none
      else if e.toNat = 0 then some ⟨s == .negative, m.toNat, -1074⟩
      else some ⟨s == .negative, 2 ^ 52 + m.toNat, e.toNat - 1075⟩ := by
  rw [parts?_eq, ← partsOf_unpack, ← packed]
  rfl

/-- A number of the right shape is packed as it is. -/
theorem parts?_pack_finite (s : Sign) {m : Nat} {e : Int} (pos : 0 < m) (shape : Canonical m e) :
    parts? (.ofModel (.pack (.finite s m e pos))) = some ⟨s == .negative, m, e⟩ := by
  obtain ⟨small, least, greatest, normal⟩ := shape
  have biased : (e + (Format.binary64.exponentBias : Nat) +
      (Format.binary64.mantissaBitsWithoutImplicit : Nat)).toNat = (e + 1075).toNat := by
    change (e + 1023 + 52).toNat = _
    omega
  by_cases large : 2 ^ 52 ≤ m
  · have log : m.log2 = 52 := (Nat.log2_eq_iff (by omega)).mpr ⟨large, small⟩
    have packed : UnpackedFloat.pack .binary64 (.finite s m e pos) =
        packComponents .binary64 s (BitVec.ofNat 11 (e + 1075).toNat) (BitVec.ofNat 52 m) := by
      simp only [UnpackedFloat.pack, biased]
      rw [if_neg, if_pos]
      · rw [log]; rfl
      · omega
    rw [parts?_pack packed, BitVec.toNat_ofNat, BitVec.toNat_ofNat, if_neg (by omega),
      if_neg (by omega)]
    simp only [Option.some.injEq, Parts.mk.injEq, true_and]
    omega
  · obtain rfl := normal.resolve_left large
    have log : m.log2 < 52 := (Nat.log2_lt (by omega)).mpr (by omega)
    have packed : UnpackedFloat.pack .binary64 (.finite s m (-1074) pos) =
        packComponents .binary64 s 0#11 (BitVec.ofNat 52 m) := by
      simp only [UnpackedFloat.pack, biased]
      rw [if_neg (by decide), if_neg]
      change ¬ m.log2 + 1 = 53
      omega
    rw [parts?_pack packed]
    have fraction : (BitVec.ofNat 52 m).toNat = m := Nat.mod_eq_of_lt (by omega)
    rw [fraction]
    rfl

theorem infinity_eq_pack : infinity = .ofModel (.pack (.infinity .positive)) := rfl

/-- A number that is too large is packed as infinity. -/
theorem pack_finite_large {m : Nat} {e : Int} (pos : 0 < m) (large : 972 ≤ e) :
    Float.ofModel (.pack (.finite .positive m e pos)) = infinity := by
  have packed : UnpackedFloat.pack .binary64 (.finite .positive m e pos) =
      UnpackedFloat.pack .binary64 (.infinity .positive) := by
    simp only [UnpackedFloat.pack]
    rw [if_pos]
    change 2 ^ 11 ≤ (e + 1023 + 52).toNat + 1
    omega
  rw [infinity_eq_pack, Float.Model.pack, Float.Model.pack]
  simp only [packed]

end Binning.Binary64
