import Binning.Axis.Basic
import Binning.Layout
import Mathlib.Algebra.Group.Nat.Defs
import Mathlib.Data.List.Forall2

/-! The slots of an axis and of a list of axes. While the extent is a signed
word, the indices that have a slot and the slots below the extent are in
bijection, and so are tuples of them: an index is its slot less the underflow
bin. -/
namespace Binning.Axis

/-- Every slot is numbered by a signed word. -/
def Fits (a : Axis) : Prop := a.extent < 2 ^ 63

theorem size_le_extent (a : Axis) : a.size ≤ a.extent := Nat.le_add_right ..

theorem extent_eq (a : Axis) :
    a.extent = a.size + a.options.underflow.toNat + a.options.overflow.toNat :=
  (Nat.add_assoc ..).symm

theorem extent_pos {a : Axis} (sized : 0 < a.size) : 0 < a.extent :=
  Nat.lt_of_lt_of_le sized a.size_le_extent

variable {a : Axis}

theorem Fits.beyond_eq (fits : a.Fits) : a.beyond = a.size :=
  Word64.signed_of_lt (Nat.lt_of_le_of_lt a.size_le_extent fits)

/-- An index that has a slot is below the bins, one of them or above them. -/
theorem Fits.representable_iff_cases (fits : a.Fits) {i : Int} :
    a.representable i = true ↔ i = -1 ∧ a.options.underflow = true ∨ 0 ≤ i ∧ i < a.size ∨
      i = a.size ∧ a.options.overflow = true := by
  unfold representable
  rw [fits.beyond_eq]
  by_cases below : i = -1
  · rw [if_pos below]
    subst below
    constructor
    · intro under
      exact .inl ⟨rfl, under⟩
    · rintro (⟨_, under⟩ | ⟨low, _⟩ | ⟨same, _⟩)
      · exact under
      · omega
      · omega
  rw [if_neg below]
  by_cases above : i = a.size
  · rw [if_pos above]
    constructor
    · intro flows
      exact .inr (.inr ⟨above, flows⟩)
    · rintro (⟨same, _⟩ | ⟨_, high⟩ | ⟨_, flows⟩)
      · exact absurd same below
      · omega
      · exact flows
  · rw [if_neg above, decide_eq_true_eq, InRange, fits.beyond_eq]
    constructor
    · intro inside
      exact .inr (.inl inside)
    · rintro (⟨same, _⟩ | inside | ⟨same, _⟩)
      · exact absurd same below
      · exact inside
      · exact absurd same above

theorem Fits.representable_iff (fits : a.Fits) {i : Int} :
    a.representable i = true ↔
      0 ≤ i + a.options.underflow.toNat ∧ i + a.options.underflow.toNat < a.extent := by
  rw [fits.representable_iff_cases, extent_eq]
  cases a.options.underflow <;> cases a.options.overflow <;>
    simp only [Bool.toNat_false, Bool.toNat_true, Bool.false_eq_true, and_true, and_false,
      or_false, false_or] <;>
    omega

theorem Fits.cast_slot (fits : a.Fits) {i : Int} (has : a.representable i = true) :
    (a.slot i : Int) = i + a.options.underflow.toNat := by
  obtain ⟨low, high⟩ := fits.representable_iff.mp has
  have small : a.extent < 2 ^ 63 := fits
  rw [slot, Word64.unsigned_of_nonneg low (by omega), Int.toNat_of_nonneg low]

theorem Fits.slot_lt (fits : a.Fits) {i : Int} (has : a.representable i = true) :
    a.slot i < a.extent := by
  have cast := fits.cast_slot has
  have high := (fits.representable_iff.mp has).2
  omega

theorem Fits.indexOfSlot_eq (fits : a.Fits) {s : Nat} (below : s < a.extent) :
    a.indexOfSlot s = s - a.options.underflow.toNat := by
  rw [indexOfSlot, Word64.signed_of_lt (Nat.lt_trans below fits)]

theorem Fits.representable_indexOfSlot (fits : a.Fits) {s : Nat} (below : s < a.extent) :
    a.representable (a.indexOfSlot s) = true := by
  rw [fits.representable_iff, fits.indexOfSlot_eq below]
  omega

theorem Fits.indexOfSlot_slot (fits : a.Fits) {i : Int} (has : a.representable i = true) :
    a.indexOfSlot (a.slot i) = i := by
  rw [fits.indexOfSlot_eq (fits.slot_lt has), fits.cast_slot has]
  omega

theorem Fits.slot_indexOfSlot (fits : a.Fits) {s : Nat} (below : s < a.extent) :
    a.slot (a.indexOfSlot s) = s := by
  have cast := fits.cast_slot (fits.representable_indexOfSlot below)
  rw [fits.indexOfSlot_eq below] at cast ⊢
  omega

theorem Fits.slot?_eq_some_iff (fits : a.Fits) {i : Int} {s : Nat} :
    a.slot? i = some s ↔ s < a.extent ∧ a.indexOfSlot s = i := by
  unfold slot?
  constructor
  · intro found
    split at found
    · rename_i has
      cases found
      exact ⟨fits.slot_lt has, fits.indexOfSlot_slot has⟩
    · contradiction
  · rintro ⟨below, rfl⟩
    rw [if_pos (fits.representable_indexOfSlot below), fits.slot_indexOfSlot below]

theorem Fits.map_slot?_eq_some_iff (fits : a.Fits) {i k : Int} :
    (a.slot? i).map a.indexOfSlot = some k ↔ i = k ∧ a.representable i = true := by
  unfold slot?
  split
  · rename_i has
    rw [Option.map_some, fits.indexOfSlot_slot has, Option.some_inj]
    exact (and_iff_left has).symm
  · simp_all

theorem Fits.representable_of_inRange (fits : a.Fits) {i : Int} (low : 0 ≤ i)
    (high : i < a.size) : a.representable i = true := by
  exact fits.representable_iff_cases.mpr (.inr (.inl ⟨low, high⟩))

theorem representable_under (a : Axis) : a.representable (-1) = a.options.underflow := if_pos rfl

theorem Fits.representable_beyond (fits : a.Fits) :
    a.representable a.size = a.options.overflow := by
  unfold representable
  rw [if_neg (by omega), if_pos fits.beyond_eq.symm]

/-! ### Tuples -/

def slotsOf (axes : List Axis) (indices : List Int) : List Nat := List.zipWith slot axes indices

def indicesOf (axes : List Axis) (slots : List Nat) : List Int :=
  List.zipWith indexOfSlot axes slots

/-- There is one index for each axis, and all have a slot. -/
def Addresses (axes : List Axis) (indices : List Int) : Prop :=
  List.Forall₂ (fun a i => representable a i = true) axes indices

instance (axes : List Axis) (indices : List Int) : Decidable (Addresses axes indices) :=
  inferInstanceAs (Decidable (List.Forall₂ ..))

def place (axes : List Axis) (indices : List Int) : Nat :=
  Layout.position (axes.map extent) (slotsOf axes indices)

def indicesAt (axes : List Axis) (p : Nat) : List Int :=
  indicesOf axes (Layout.tuple (axes.map extent) p)

variable {axes : List Axis}

theorem inside_slotsOf {indices : List Int} (fits : ∀ a ∈ axes, a.Fits)
    (has : Addresses axes indices) :
    Layout.Inside (axes.map extent) (slotsOf axes indices) := by
  induction has with
  | nil => exact .nil
  | cons first _ ih =>
    obtain ⟨head, tail⟩ := List.forall_mem_cons.mp fits
    exact .cons (head.slot_lt first) (ih tail)

theorem addresses_indicesOf {slots : List Nat} (fits : ∀ a ∈ axes, a.Fits)
    (inside : Layout.Inside (axes.map extent) slots) : Addresses axes (indicesOf axes slots) := by
  induction axes generalizing slots with
  | nil =>
    cases inside
    exact .nil
  | cons a axes ih =>
    obtain ⟨head, tail⟩ := List.forall_mem_cons.mp fits
    cases inside with
    | cons below inside => exact .cons (head.representable_indexOfSlot below) (ih tail inside)

theorem indicesOf_slotsOf {indices : List Int} (fits : ∀ a ∈ axes, a.Fits)
    (has : Addresses axes indices) : indicesOf axes (slotsOf axes indices) = indices := by
  induction has with
  | nil => rfl
  | cons first _ ih =>
    obtain ⟨head, tail⟩ := List.forall_mem_cons.mp fits
    exact congrArg₂ List.cons (head.indexOfSlot_slot first) (ih tail)

theorem place_lt {indices : List Int} (fits : ∀ a ∈ axes, a.Fits)
    (has : Addresses axes indices) : place axes indices < Layout.volume (axes.map extent) :=
  (inside_slotsOf fits has).position_lt

theorem indicesAt_place {indices : List Int} (fits : ∀ a ∈ axes, a.Fits)
    (has : Addresses axes indices) : indicesAt axes (place axes indices) = indices := by
  rw [indicesAt, place, (inside_slotsOf fits has).tuple_position, indicesOf_slotsOf fits has]

theorem slotsOf_indicesOf {slots : List Nat} (fits : ∀ a ∈ axes, a.Fits)
    (inside : Layout.Inside (axes.map extent) slots) :
    slotsOf axes (indicesOf axes slots) = slots := by
  induction axes generalizing slots with
  | nil =>
    cases inside
    rfl
  | cons a axes ih =>
    obtain ⟨head, tail⟩ := List.forall_mem_cons.mp fits
    cases inside with
    | cons below inside => exact congrArg₂ List.cons (head.slot_indexOfSlot below) (ih tail inside)

end Binning.Axis
