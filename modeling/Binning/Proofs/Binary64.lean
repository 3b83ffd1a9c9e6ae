import Binning.Binary64
import Mathlib

/-! Adding a number to zero. The sum is the number itself, except that the
negative zero loses its sign, so a sum that starts at zero holds the same
number as its first term. -/
namespace Binning.Binary64
open Float.Model Float.Model.UnpackedFloat

/-! ### Numbers and their parts -/

theorem pack_unpack (m : Float.Model) : Float.Model.pack m.unpack = m := by
  obtain ⟨bits, valid⟩ := m
  simp only [Float.Model.pack, Float.Model.unpack, pack_unpack_of_valid valid]

theorem eq_of_unpack_eq {x y : Float} (same : x.toModel.unpack = y.toModel.unpack) : x = y := by
  have left := pack_unpack x.toModel
  rw [same, pack_unpack y.toModel] at left
  exact congrArg Float.ofModel left.symm

theorem add_eq_pack (x y : Float) :
    x + y = .ofModel (.pack (.add .binary64 x.toModel.unpack y.toModel.unpack)) := rfl

theorem unpack_zero : (0 : Float).toModel.unpack = .zero .positive := rfl

theorem unpack_neg_zero : (-0.0 : Float).toModel.unpack = .zero .negative := rfl

/-! ### Zero -/

/-- The same number, where the two zeros are not told apart and NaN is the same
as itself. -/
def Alike (x y : Float) : Prop := x = y ∨ x == y

theorem Alike.refl (x : Float) : Alike x x := .inl rfl

theorem zero_add_or (x : Float) : 0 + x = x ∨ x = -0.0 ∧ 0 + x = 0 := by
  rw [add_eq_pack, unpack_zero]
  cases parts : x.toModel.unpack with
  | infinity | notANumber | finite =>
    left
    simp only [UnpackedFloat.add]
    rw [← parts, pack_unpack]
  | zero sign =>
    cases sign with
    | positive =>
      left
      apply eq_of_unpack_eq
      rw [parts]
      rfl
    | negative =>
      right
      exact ⟨eq_of_unpack_eq (parts.trans rfl), rfl⟩

theorem neg_zero_add (w : Float) : Alike (0 + w) (-0.0 + w) := by
  rw [add_eq_pack, add_eq_pack, unpack_zero, unpack_neg_zero]
  cases w.toModel.unpack with
  | infinity | notANumber | finite => exact .inl rfl
  | zero sign =>
    cases sign with
    | positive => exact .inl rfl
    | negative => exact .inr rfl

/-- A sum that starts at zero holds its first term. -/
theorem alike_zero_add (x : Float) : Alike (0 + x) x := by
  rcases zero_add_or x with same | ⟨rfl, zero⟩
  · exact .inl same
  · exact .inr (zero ▸ rfl)

/-- A sum that starts at zero is not the negative zero, so zero adds nothing to it. -/
theorem zero_add_zero_add (x : Float) : 0 + (0 + x) = 0 + x := by
  rcases zero_add_or x with same | ⟨rfl, zero⟩
  · rw [same, same]
  · rw [zero]
    rfl

/-- It goes on as if it had started at that term. -/
theorem alike_zero_add_add (x w : Float) : Alike (0 + x + w) (x + w) := by
  rcases zero_add_or x with same | ⟨rfl, zero⟩
  · exact .inl (by rw [same])
  · exact zero ▸ neg_zero_add w

end Binning.Binary64
