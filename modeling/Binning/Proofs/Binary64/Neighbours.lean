import Binning.Proofs.Binary64.Order

/-! The next number up. Words without their sign count the magnitudes upward, so the
neighbour that is found by counting on is greater. -/
namespace Binning.Binary64
open Float.Model Float.Model.UnpackedFloat

variable {x y : Float} {p : Parts}

/-- The magnitude that the last 63 bits of a word stand for, in units of the least
positive number. -/
def wordUnits (w : Nat) : Nat :=
  if w < 2 ^ 52 then w else (2 ^ 52 + w % 2 ^ 52) * 2 ^ (w / 2 ^ 52 - 1)

theorem wordUnits_lt_succ (w : Nat) : wordUnits w < wordUnits (w + 1) := by
  unfold wordUnits
  rcases Nat.lt_or_ge w (2 ^ 52) with subnormal | normal
  · rcases Nat.lt_or_ge (w + 1) (2 ^ 52) with still | least
    · rw [if_pos subnormal, if_pos still]
      exact Nat.lt_succ_self w
    · obtain rfl : w = 2 ^ 52 - 1 := by omega
      decide
  have scale : 0 < 2 ^ (w / 2 ^ 52 - 1) := Nat.two_pow_pos _
  rw [if_neg (by omega), if_neg (by omega)]
  by_cases carry : w % 2 ^ 52 = 2 ^ 52 - 1
  · -- the fraction starts again at zero, with twice the scale
    have fraction : (w + 1) % 2 ^ 52 = 0 := by omega
    have field : (w + 1) / 2 ^ 52 - 1 = w / 2 ^ 52 - 1 + 1 := by omega
    have twice : 2 ^ (w / 2 ^ 52 - 1 + 1) = 2 * 2 ^ (w / 2 ^ 52 - 1) := Nat.pow_succ'
    rw [carry, fraction, field, twice]
    omega
  · have fraction : (w + 1) % 2 ^ 52 = w % 2 ^ 52 + 1 := by omega
    have field : (w + 1) / 2 ^ 52 = w / 2 ^ 52 := by omega
    rw [fraction, field]
    exact Nat.mul_lt_mul_of_pos_right (by omega) scale

/-- A finite number has the magnitude of its word. -/
theorem units_of_word (found : parts? x = some p) :
    p.units = if 2 ^ 63 ≤ x.toBits.toNat then -(wordUnits (x.toBits.toNat - 2 ^ 63) : Int)
      else wordUnits x.toBits.toNat := by
  have word : x.toBits.toNat < 2 ^ 64 := x.toBits.toNat_lt
  simp only [parts?] at found
  generalize x.toBits.toNat = b at *
  have signed (m : Nat) (e : Int) (same : magnitude m e = wordUnits (b % 2 ^ 63)) :
      Parts.units ⟨decide (0x8000000000000000 ≤ b), m, e⟩ =
        if 2 ^ 63 ≤ b then -(wordUnits (b - 2 ^ 63) : Int) else wordUnits b := by
    rw [Parts.units, Parts.withSign, same]
    split <;> rename_i sign <;> simp only [decide_eq_true_eq] at sign
    · rw [if_pos (by omega), show b % 2 ^ 63 = b - 2 ^ 63 by omega]
    · rw [if_neg (by omega), show b % 2 ^ 63 = b by omega]
  split at found
  · contradiction
  split at found
  · cases found
    apply signed
    rw [wordUnits, if_pos (by omega)]
    exact (Nat.mul_one _).trans (by omega)
  · cases found
    apply signed
    rw [wordUnits, if_neg (by omega), magnitude]
    congr 2 <;> omega

/-- A word that is no NaN is kept. -/
theorem toBits_ofBits {b : UInt64} (finite : b.toNat / 2 ^ 52 % 2 ^ 11 ≠ 2047) :
    (Float.ofBits b).toBits = b := by
  obtain ⟨s, e, m, packed⟩ : ∃ s e m, b.toBitVec = packComponents .binary64 s e m :=
    ⟨_, _, _, (@packComponents_unpackSign_unpackExponent_unpackMantissa .binary64 _).symm⟩
  have fields : b.toNat = _ := (congrArg BitVec.toNat packed).trans (toNat_packComponents s e m)
  have fraction : m.toNat < 2 ^ 52 := m.isLt
  have exponent : e.toNat < 2 ^ 11 := e.isLt
  have valid : Format.binary64.Valid b.toBitVec := by
    refine ⟨fun top => ?_⟩
    rw [packed, unpackExponent_packComponents] at top
    have full : e.toNat = 2047 := congrArg BitVec.toNat top
    omega
  exact UInt64.toBitVec_inj.mp (pack_unpack_of_valid valid)

theorem exists_parts_ofBits {b : UInt64} (finite : b.toNat / 2 ^ 52 % 2 ^ 11 ≠ 2047) :
    ∃ p, parts? (Float.ofBits b) = some p := by
  simp only [parts?, toBits_ofBits finite]
  split
  · contradiction
  split <;> exact ⟨_, rfl⟩

/-- The field of the exponent of a finite number is not full. -/
theorem field_of_parts? (found : parts? x = some p) :
    x.toBits.toNat / 2 ^ 52 % 2 ^ 11 ≠ 2047 := by
  intro full
  have full : x.toBits.toNat / 0x10000000000000 % 0x800 = 0x7FF := full
  simp [parts?, full] at found

theorem beq_zero_iff_units (found : parts? x = some p) : (x == 0) = true ↔ p.units = 0 := by
  have zero : parts? 0 = some ⟨false, 0, -1074⟩ := rfl
  have defined := defined_of_parts? found
  have level : (x == 0) = true ↔ level x = level 0 := beq_iff_level defined rfl
  simp [level, level_of_parts? found, level_of_parts? zero]

theorem beq_infinity_eq_false (found : parts? x = some p) : (x == infinity) = false := by
  have defined := defined_of_parts? found
  rw [← Bool.not_eq_true, beq_iff_level defined rfl, level_of_parts? found, level_infinity]
  exact WithBot.coe_injective.ne WithTop.coe_ne_top

/-! ### Neighbours -/

/-- Below zero the magnitudes are counted down. -/
theorem exists_parts_ofBits_pred (found : parts? x = some p) (below : p.units < 0) :
    2 ^ 63 < x.toBits.toNat ∧ ∃ q, parts? (Float.ofBits (x.toBits - 1)) = some q ∧
      q.units = -(wordUnits (x.toBits.toNat - 2 ^ 63 - 1) : Int) := by
  have units := units_of_word found
  have field := field_of_parts? found
  have word : x.toBits.toNat < 2 ^ 64 := x.toBits.toNat_lt
  split at units
  · have counted : x.toBits.toNat ≠ 2 ^ 63 := by
      intro same
      simp [units, same, wordUnits] at below
    have back : (x.toBits - 1).toNat = x.toBits.toNat - 1 :=
      UInt64.toNat_sub_of_le _ _ (UInt64.le_iff_toNat_le.mpr (by change 1 ≤ _; omega))
    have fits : (x.toBits - 1).toNat / 2 ^ 52 % 2 ^ 11 ≠ 2047 := by omega
    obtain ⟨q, next⟩ := exists_parts_ofBits fits
    refine ⟨by omega, q, next, ?_⟩
    rw [units_of_word next, toBits_ofBits fits, back, if_pos (by omega), Nat.sub_right_comm]
  · omega

/-- Above zero they are counted up, to infinity after the last. -/
theorem parts_ofBits_succ (found : parts? x = some p) (above : 0 < p.units) :
    x.toBits.toNat < 2 ^ 63 ∧ (Float.ofBits (x.toBits + 1) = infinity ∧
        x.toBits.toNat + 1 = 2047 * 2 ^ 52 ∨
      ∃ q, parts? (Float.ofBits (x.toBits + 1)) = some q ∧
        q.units = wordUnits (x.toBits.toNat + 1)) := by
  have units := units_of_word found
  have field := field_of_parts? found
  have word : x.toBits.toNat < 2 ^ 64 := x.toBits.toNat_lt
  split at units
  · omega
  have forth : (x.toBits + 1).toNat = x.toBits.toNat + 1 := by
    rw [UInt64.toNat_add]
    exact Nat.mod_eq_of_lt (by change x.toBits.toNat + 1 < _; omega)
  refine ⟨by omega, ?_⟩
  by_cases full : (x.toBits + 1).toNat / 2 ^ 52 % 2 ^ 11 = 2047
  · have last : x.toBits + 1 = 0x7FF0000000000000 := by
      apply UInt64.toNat_inj.mp
      change _ = 0x7FF0000000000000
      omega
    rw [last]
    exact .inl ⟨rfl, by omega⟩
  · obtain ⟨q, next⟩ := exists_parts_ofBits full
    refine .inr ⟨q, next, ?_⟩
    rw [units_of_word next, toBits_ofBits full, forth, if_neg (by omega)]

theorem lt_ofBits_pred (found : parts? x = some p) (below : p.units < 0) :
    x < Float.ofBits (x.toBits - 1) := by
  obtain ⟨sign, q, next, units⟩ := exists_parts_ofBits_pred found below
  have closer := wordUnits_lt_succ (x.toBits.toNat - 2 ^ 63 - 1)
  rw [Nat.sub_add_cancel (by omega)] at closer
  rw [lt_iff found next, units, units_of_word found, if_pos (by omega)]
  omega

theorem lt_ofBits_succ (found : parts? x = some p) (above : 0 < p.units) :
    x < Float.ofBits (x.toBits + 1) := by
  obtain ⟨sign, ⟨last, _⟩ | ⟨q, next, units⟩⟩ := parts_ofBits_succ found above
  · rw [last]
    exact lt_infinity found
  · have farther := wordUnits_lt_succ x.toBits.toNat
    rw [lt_iff found next, units, units_of_word found, if_neg (by omega)]
    omega

theorem nextUp_eq (found : parts? x = some p) :
    nextUp x = if p.units = 0 then Float.ofBits 1
      else if p.units < 0 then Float.ofBits (x.toBits - 1) else Float.ofBits (x.toBits + 1) := by
  simp only [nextUp, defined_of_parts? found, beq_infinity_eq_false found, Bool.or_self,
    Bool.false_eq_true, if_false, beq_zero_iff_units found, lt_zero_iff_units found]

/-- A finite number has a number above it. -/
theorem lt_nextUp (finite : isFinite x = true) : x < nextUp x := by
  obtain ⟨p, found⟩ := Option.isSome_iff_exists.mp finite
  rw [nextUp_eq found]
  split
  · rename_i zero
    have least : parts? (Float.ofBits 1) = some ⟨false, 1, -1074⟩ := rfl
    rw [lt_iff found least, zero]
    decide
  split
  · exact lt_ofBits_pred found ‹_›
  · exact lt_ofBits_succ found (by omega)

end Binning.Binary64
