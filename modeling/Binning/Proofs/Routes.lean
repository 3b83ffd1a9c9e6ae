import Binning.Proofs.Axis.Sizes
import Binning.Proofs.Reduction

/-! What each route does to the indices of an axis. A sum admits a range with
its flow bins, a group gathers consecutive bins, and an axis that has grown
carries its bins behind the new ones. -/
namespace Binning

/-- The quotient of a position in a range by a number of bins that is read as a
signed word is exact as long as both together are an unsigned word. -/
theorem Word64.tdiv_signed_eq_iff {n d : Nat} (small : n < 2 ^ 63) (positive : 0 < d)
    (word : d < 2 ^ 64) :
    (n : Int).tdiv (signed d) = (n / d : Nat) ↔ n + d < 2 ^ 64 := by
  rcases Nat.lt_or_ge d (2 ^ 63) with half | half
  · rw [signed_of_lt half, Int.ofNat_tdiv]
    constructor
    · intro _
      omega
    · intro _
      rfl
  · have negative : signed d = -((2 ^ 64 - d : Nat) : Int) := by
      rw [signed_eq_bmod, Int.bmod_def]
      omega
    rw [negative, Int.tdiv_neg, ← Int.ofNat_tdiv, Nat.div_eq_of_lt (Nat.lt_of_lt_of_le small half)]
    constructor
    · intro zero
      have none_whole : n / (2 ^ 64 - d) = 0 := by omega
      have below := (Nat.div_eq_zero_iff_lt (by omega)).mp none_whole
      omega
    · intro fits
      rw [Nat.div_eq_of_lt (by omega)]
      rfl

namespace Axis

/-- The index is in the range, or it is that of a flow bin that goes with it. -/
def Within (a : Axis) (lo hi : Nat) (under beyond : Bool) (i : Int) : Prop :=
  lo ≤ i ∧ i < hi ∨ i = -1 ∧ under = true ∨ i = a.size ∧ beyond = true

instance (a : Axis) (lo hi : Nat) (under beyond : Bool) (i : Int) :
    Decidable (a.Within lo hi under beyond i) := inferInstanceAs (Decidable (_ ∨ _))

/-- Group `k` of the range has the index, or `k` is the flow bin that stands for
the flow bin of the index. -/
def Grouped (a : Axis) (lo hi merge : Nat) (under beyond : Bool) (i k : Int) : Prop :=
  0 ≤ k ∧ lo + k * merge ≤ i ∧ i < min (lo + (k + 1) * merge) hi ∨
    i = -1 ∧ under = true ∧ k = -1 ∨
    i = a.size ∧ beyond = true ∧ k = ((hi - lo) ⌈/⌉ merge : Nat)

instance (a : Axis) (lo hi merge : Nat) (under beyond : Bool) (i k : Int) :
    Decidable (a.Grouped lo hi merge under beyond i k) := inferInstanceAs (Decidable (_ ∨ _))

theorem Fits.slice {a new : Axis} {lo hi merge : Nat} (fits : a.Fits)
    (cut : a.slice lo hi merge = .ok new) : new.Fits :=
  Nat.lt_of_le_of_lt (extent_le_of_slice cut) fits

end Axis

namespace Route
variable {a new : Axis} {lo hi merge : Nat} {under beyond : Bool} {i k : Int}

theorem lands_fold (admits : Nat → Bool) : (fold admits).Lands a := by
  intro s _ k sent
  simp only [send] at sent
  split at sent <;> cases sent

theorem lands_identity : (identity a).Lands a := by
  intro s below k sent
  cases sent
  exact ⟨a, rfl, below⟩

theorem lands_regroup (fits : new.Fits) : (regroup a new lo hi merge under beyond).Lands a := by
  intro s _ k sent
  obtain ⟨k, found, same⟩ := Option.map_eq_some_iff.mp sent
  cases same
  obtain ⟨_, _, slot⟩ := Option.bind_eq_some_iff.mp found
  exact ⟨new, rfl, (fits.slot?_eq_some_iff.mp slot).1⟩

theorem lands_regrow (fits : new.Fits) (front : Nat) : (regrow a new front).Lands a := by
  intro s _ k sent
  obtain ⟨k, found, same⟩ := Option.map_eq_some_iff.mp sent
  cases same
  exact ⟨new, rfl, (fits.slot?_eq_some_iff.mp found).1⟩

/-! ### Indices -/

theorem index?_identity (fits : a.Fits) (has : a.representable i = true) :
    (identity a).index? a i = some i := by
  rw [identity, index?, Option.map_some, fits.indexOfSlot_slot has]

theorem index?_regrow (fits : a.Fits) (new_fits : new.Fits) (has : a.representable i = true)
    (flows : new.options = a.options) {front : Nat} (large : a.size + front ≤ new.size) :
    (regrow a new front).index? a i =
      some (if i = -1 then -1 else if i = a.size then (new.size : Int) else i + front) := by
  have word : front < 2 ^ 63 :=
    Nat.lt_of_le_of_lt (by omega) (Nat.lt_of_le_of_lt new.size_le_extent new_fits)
  simp only [regrow, index?]
  rw [fits.indexOfSlot_slot has, fits.beyond_eq, new_fits.beyond_eq, Word64.signed_of_lt word,
    new_fits.map_slot?_eq_some_iff]
  refine ⟨rfl, new_fits.representable_iff_cases.mpr ?_⟩
  rw [flows]
  rcases fits.representable_iff_cases.mp has with ⟨rfl, flow⟩ | ⟨low, high⟩ | ⟨rfl, flow⟩
  · exact .inl ⟨rfl, flow⟩
  · rw [if_neg (by omega), if_neg (by omega)]
    exact .inr (.inl ⟨by omega, by omega⟩)
  · rw [if_neg (by omega), if_pos rfl]
    exact .inr (.inr ⟨rfl, flow⟩)

theorem send_select_iff (fits : a.Fits) (has : a.representable i = true)
    (picked : a.representable k = true) :
    (select (a.slot k)).send (a.slot i) = some none ↔ i = k := by
  simp only [select, send, Option.ite_none_right_eq_some, and_true, beq_iff_eq]
  constructor
  · intro same
    rw [← fits.indexOfSlot_slot has, same, fits.indexOfSlot_slot picked]
  · rintro rfl
    rfl

theorem send_sum_iff (fits : a.Fits) (has : a.representable i = true) (ordered : lo ≤ hi)
    (inside : hi ≤ a.size) :
    (sum a lo hi under beyond).send (a.slot i) = some none ↔ a.Within lo hi under beyond i := by
  have word := Nat.lt_of_le_of_lt a.size_le_extent fits
  simp only [sum, send, fits.indexOfSlot_slot has, fits.beyond_eq, Axis.Within,
    Word64.signed_of_lt (Nat.lt_of_le_of_lt inside word),
    Word64.signed_of_lt (Nat.lt_of_le_of_lt (Nat.le_trans ordered inside) word)]
  by_cases below : i = -1
  · subst below
    simp
    omega
  by_cases above : i = a.size
  · subst above
    simp
    omega
  · simp [below, above]

theorem index?_regroup_iff (fits : a.Fits) (cut : a.slice lo hi merge = .ok new)
    (has : a.representable i = true) :
    (regroup a new lo hi merge under beyond).index? a i = some k ↔
      new.representable k = true ∧
        (lo ≤ i ∧ i < hi ∧ (i - lo).tdiv (Word64.signed merge) = k ∨
          i = -1 ∧ under = true ∧ k = -1 ∨ i = a.size ∧ beyond = true ∧ k = new.size) := by
  have word := Nat.lt_of_le_of_lt a.size_le_extent fits
  have new_fits := fits.slice cut
  obtain ⟨some_bin, inside, _⟩ := Axis.size_of_slice cut
  simp only [regroup, index?, fits.indexOfSlot_slot has, fits.beyond_eq, new_fits.beyond_eq,
    Word64.signed_of_lt (Nat.lt_of_le_of_lt inside word),
    Word64.signed_of_lt (Nat.lt_trans some_bin (Nat.lt_of_le_of_lt inside word))]
  split
  · rename_i flow
    obtain ⟨rfl, flow⟩ := flow
    rw [Option.bind_eq_bind, Option.bind_some, new_fits.map_slot?_eq_some_iff]
    constructor
    · rintro ⟨rfl, slot⟩
      exact ⟨slot, .inr (.inl ⟨rfl, flow, rfl⟩)⟩
    · rintro ⟨slot, ⟨low, _⟩ | ⟨_, _, rfl⟩ | ⟨same, _⟩⟩
      · omega
      · exact ⟨rfl, slot⟩
      · omega
  rename_i no_under
  split
  · rename_i flow
    obtain ⟨rfl, flow⟩ := flow
    rw [Option.bind_eq_bind, Option.bind_some, new_fits.map_slot?_eq_some_iff]
    constructor
    · rintro ⟨rfl, slot⟩
      exact ⟨slot, .inr (.inr ⟨rfl, flow, rfl⟩)⟩
    · rintro ⟨slot, ⟨_, high, _⟩ | ⟨same, _⟩ | ⟨_, _, rfl⟩⟩
      · omega
      · omega
      · exact ⟨rfl, slot⟩
  rename_i no_over
  split
  · rename_i range
    rw [Option.bind_eq_bind, Option.bind_some, new_fits.map_slot?_eq_some_iff]
    constructor
    · rintro ⟨rfl, slot⟩
      exact ⟨slot, .inl ⟨range.1, range.2, rfl⟩⟩
    · rintro ⟨slot, ⟨_, _, rfl⟩ | ⟨same, flow, _⟩ | ⟨same, flow, _⟩⟩
      · exact ⟨rfl, slot⟩
      · exact absurd ⟨same, flow⟩ no_under
      · exact absurd ⟨same, flow⟩ no_over
  · rename_i no_range
    constructor
    · rintro ⟨⟩
    · rintro ⟨_, ⟨low, high, _⟩ | ⟨same, flow, _⟩ | ⟨same, flow, _⟩⟩
      · exact absurd ⟨low, high⟩ no_range
      · exact absurd ⟨same, flow⟩ no_under
      · exact absurd ⟨same, flow⟩ no_over

/-- A bin of the range goes to its group as long as its position and the number
of bins in a group are together an unsigned word. -/
theorem index?_regroup_of_inside (fits : a.Fits) (cut : a.slice lo hi merge = .ok new)
    (word : merge < 2 ^ 64) {n : Nat} (high : lo + n < hi) :
    (regroup a new lo hi merge under beyond).index? a (lo + n : Nat) = some ((n / merge : Nat) : Int) ↔
      n + merge < 2 ^ 64 := by
  obtain ⟨_, inside, positive, size, _⟩ := Axis.size_of_slice cut
  have small : n < 2 ^ 63 := by
    have large := Nat.lt_of_le_of_lt a.size_le_extent fits
    omega
  have has : a.representable (lo + n : Nat) = true :=
    fits.representable_of_inRange (by omega) (by omega)
  have group : n / merge < new.size := by
    rw [size, lt_ceilDiv_iff positive]
    exact Nat.lt_of_le_of_lt (Nat.div_mul_le_self n merge) (by omega)
  rw [index?_regroup_iff fits cut has, ← Word64.tdiv_signed_eq_iff small positive word]
  rw [show ((lo + n : Nat) : Int) - lo = n by omega]
  constructor
  · rintro ⟨_, ⟨_, _, same⟩ | ⟨same, _⟩ | ⟨same, _⟩⟩
    · exact same
    · omega
    · omega
  · intro same
    refine ⟨?_, .inl ⟨by omega, by omega, same⟩⟩
    exact (fits.slice cut).representable_of_inRange (Int.natCast_nonneg _)
      (Int.ofNat_lt.mpr group)

/-- A slot is sent to the slot of the index that its own index goes to. -/
theorem send_eq_some_iff {route : Route} (lands : route.Lands a) (fits : a.Fits)
    (stays : route.axis? = some new) (new_fits : new.Fits) (has : a.representable i = true)
    (taken : new.representable k = true) :
    route.send (a.slot i) = some (some (new.slot k)) ↔ route.index? a i = some k := by
  cases route with
  | fold => contradiction
  | keep target kept =>
    cases stays
    simp only [send, index?, Option.map_eq_some_iff, Option.some.injEq]
    constructor
    · rintro ⟨_, found, rfl⟩
      exact ⟨_, found, new_fits.indexOfSlot_slot taken⟩
    · rintro ⟨s, found, rfl⟩
      obtain ⟨_, same, small⟩ := lands _ (fits.slot_lt has) s (by simp [send, found])
      cases same
      exact ⟨s, found, (new_fits.slot_indexOfSlot small).symm⟩

/-- Every bin of the range is sent to its group exactly if the number of bins in
a group and that in the range are together at most `2 ^ 64`. -/
theorem send_regroup_iff (fits : a.Fits) (cut : a.slice lo hi merge = .ok new)
    (word : merge < 2 ^ 64) :
    (∀ n, lo + n < hi → (regroup a new lo hi merge under beyond).send (a.slot (lo + n : Nat)) =
      some (some (new.slot (n / merge : Nat)))) ↔ merge + (hi - lo) ≤ 2 ^ 64 := by
  obtain ⟨some_bin, inside, positive, size, _⟩ := Axis.size_of_slice cut
  have new_fits := fits.slice cut
  have each : ∀ n, lo + n < hi →
      ((regroup a new lo hi merge under beyond).send (a.slot (lo + n : Nat)) =
        some (some (new.slot (n / merge : Nat))) ↔ n + merge < 2 ^ 64) := by
    intro n high
    have group : n / merge < new.size := by
      rw [size, lt_ceilDiv_iff positive]
      exact Nat.lt_of_le_of_lt (Nat.div_mul_le_self n merge) (by omega)
    rw [send_eq_some_iff (lands_regroup new_fits) fits rfl new_fits
      (fits.representable_of_inRange (by omega) (by omega))
      (new_fits.representable_of_inRange (Int.natCast_nonneg _) (Int.ofNat_lt.mpr group))]
    exact index?_regroup_of_inside fits cut word high
  constructor
  · intro all
    have last := (each (hi - lo - 1) (by omega)).mp (all _ (by omega))
    omega
  · intro small n high
    exact (each n high).mpr (by omega)

/-- Groups that are small enough gather exactly the bins of the range. -/
theorem index?_regroup (fits : a.Fits) (cut : a.slice lo hi merge = .ok new)
    (exact_groups : merge + (hi - lo) ≤ 2 ^ 64) (has : a.representable i = true) :
    (regroup a new lo hi merge under beyond).index? a i = some k ↔
      a.Grouped lo hi merge under beyond i k := by
  obtain ⟨some_bin, inside, positive, size, options, _⟩ := Axis.size_of_slice cut
  have word : merge < 2 ^ 64 := by omega
  by_cases range : lo ≤ i ∧ i < hi
  · obtain ⟨n, rfl⟩ : ∃ n : Nat, i = (lo + n : Nat) := ⟨(i - lo).toNat, by omega⟩
    have group : (regroup a new lo hi merge under beyond).index? a (lo + n : Nat) =
        some ((n / merge : Nat) : Int) :=
      (index?_regroup_of_inside fits cut word (by omega)).mpr (by omega)
    rw [group, Option.some_inj]
    unfold Axis.Grouped
    constructor
    · rintro rfl
      left
      have below := Nat.div_mul_le_self n merge
      have above := Nat.lt_mul_div_succ n positive
      rw [Nat.mul_comm] at above
      refine ⟨Int.natCast_nonneg _, ?_, ?_⟩
      · norm_cast
        omega
      · norm_cast
        omega
    · rintro (⟨low, from_low, to_high⟩ | ⟨same, _⟩ | ⟨same, _⟩)
      · obtain ⟨k, rfl⟩ := Int.eq_ofNat_of_zero_le low
        norm_cast at from_low to_high ⊢
        exact Nat.div_eq_of_lt_le (by omega) (by omega)
      · omega
      · omega
  · rw [index?_regroup_iff fits cut has, size]
    unfold Axis.Grouped
    constructor
    · rintro ⟨_, ⟨low, high, _⟩ | flow⟩
      · exact absurd ⟨low, high⟩ range
      · exact .inr flow
    · rintro (⟨low, from_low, to_high⟩ | flow)
      · have above : 0 ≤ k * merge := Int.mul_nonneg low (Int.natCast_nonneg merge)
        exact absurd ⟨by omega, by omega⟩ range
      · refine ⟨?_, .inr flow⟩
        rcases flow with ⟨rfl, _, rfl⟩ | ⟨rfl, _, rfl⟩
        · rw [Axis.representable_under] at has ⊢
          exact options ▸ has
        · rw [← size, (fits.slice cut).representable_beyond, options, ← fits.representable_beyond]
          exact has

end Route
end Binning
