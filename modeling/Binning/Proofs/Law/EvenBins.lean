import Binning.Bin
import Binning.Law.Regular
import Binning.Proofs.Exact
import Mathlib.Tactic.FieldSimp
import Mathlib.Tactic.Ring

/-! Even bins in exact numbers. A grid cuts the line into steps of its width, counted from
its first edge in the direction of its span. Bin `k` holds what is at least `k` and less
than `k + 1` steps away, and lookup counts the whole steps. It does as long as the number of
bins is a signed word; from `2 ^ 63` on the size that lookup gives is not the size. -/
namespace Binning

namespace Word64

/-- A word is its own signed reading only below the middle. -/
theorem signed_eq_self_iff {n : Nat} : signed n = n ↔ n < 2 ^ 63 := by
  refine ⟨fun same => ?_, signed_of_lt⟩
  rw [signed_eq_bmod] at same
  have most := Int.bmod_lt (x := n) (m := 0x10000000000000000) (by decide)
  omega

end Word64

/-! ### Edges and bins -/

namespace Grid
variable {α : Type} [Scalar α]

/-- The edge at fractional bin `i`, given what stands for the edges before the first and
beyond the last. -/
def valueAt (g : Grid α) (before beyond i : α) : α :=
  let z := i / Scalar.ofNat g.size
  if z < 0 then before else if 1 < z then beyond else g.between z

/-- The edge at fractional bin `i` when the grid repeats. -/
def repeatedAt (g : Grid α) (i : α) : α := g.along (i / Scalar.ofNat g.size)

def bin (g : Grid α) (before beyond : α) (k : Nat) : Interval α :=
  ⟨g.valueAt before beyond (Scalar.ofNat k), g.valueAt before beyond (Scalar.ofNat k + 1)⟩

def repeatedBin (g : Grid α) (k : Nat) : Interval α :=
  ⟨g.repeatedAt (Scalar.ofNat k), g.repeatedAt (Scalar.ofNat k + 1)⟩

end Grid

theorem Regular.innerValue_eq (r : Regular) (i : Float) :
    r.innerValue i =
      r.grid.valueAt (-Binary64.infinity * r.grid.span) (Binary64.infinity * r.grid.span) i := rfl

/-- Below the words that a cast can give, it drops the fraction. -/
theorem toSigned_of_nonneg {q : ℚ} (nonneg : 0 ≤ q) (word : q < 2 ^ 63) :
    Scalar.toSigned q = ⌊q⌋ := by
  have whole : q.num.tdiv q.den = ⌊q⌋ := by
    rw [Int.tdiv_eq_ediv_of_nonneg (Rat.num_nonneg.mpr nonneg), Rat.floor_def']
  have low : 0 ≤ ⌊q⌋ := Int.floor_nonneg.mpr nonneg
  have high : ⌊q⌋ < 2 ^ 63 := by
    rw [Int.floor_lt]
    exact_mod_cast word
  change Word64.clampSigned (q.num.tdiv q.den) = _
  rw [whole, Word64.clampSigned_of_signed]
  unfold Word64.Signed Word64.minSigned Word64.maxSigned
  omega

namespace Grid

/-- A grid that has bins of some width. -/
structure Proper (g : Grid ℚ) : Prop where
  sized : 1 ≤ g.size
  spans : g.span ≠ 0

/-- The way from the first edge to `u` in bins, whole or not. -/
def steps (g : Grid ℚ) (u : ℚ) : ℚ := g.position u * g.size

/-- The number that differs from `u` by whole spans and lies in the range. -/
def reduced (g : Grid ℚ) (u : ℚ) : ℚ := u - ⌊g.position u⌋ * g.span

variable {g : Grid ℚ} {u before beyond : ℚ} {k : ℕ}

theorem exact_position (g : Grid ℚ) (u : ℚ) : g.position u = (u - g.first) / g.span := rfl

theorem exact_width (g : Grid ℚ) : g.width = g.span / g.size := rfl

theorem exact_edge (g : Grid ℚ) (k : ℕ) : g.edge k = g.first + k * g.width := by
  change (1 - (k : ℚ) / g.size) * g.first + k / g.size * (g.first + g.span) = _
  rw [exact_width]
  ring

theorem repeatedAt_natCast (g : Grid ℚ) (k : ℕ) : g.repeatedAt k = g.edge k := by
  rw [exact_edge, exact_width]
  change g.first + (k : ℚ) / g.size * g.span = _
  ring

theorem exact_edge_succ (g : Grid ℚ) (k : ℕ) : g.edge (k + 1) = g.edge k + g.width := by
  rw [exact_edge, exact_edge, Nat.cast_succ]
  ring

theorem edge_zero (g : Grid ℚ) : g.edge 0 = g.first := by
  rw [exact_edge, Nat.cast_zero, zero_mul, add_zero]

theorem repeatedBin_eq (g : Grid ℚ) (k : ℕ) :
    g.repeatedBin k = ⟨g.edge k, g.edge (k + 1)⟩ := by
  have next : (k : ℚ) + 1 = (k + 1 : ℕ) := (Nat.cast_succ k).symm
  change Interval.mk (g.repeatedAt k) (g.repeatedAt (k + 1)) = _
  rw [next, repeatedAt_natCast, repeatedAt_natCast]

namespace Proper
variable (proper : g.Proper)
include proper

theorem size_pos : (0 : ℚ) < g.size := Nat.cast_pos.mpr proper.sized

theorem width_ne_zero : g.width ≠ 0 := by
  rw [exact_width]
  exact div_ne_zero proper.spans proper.size_pos.ne'

theorem span_eq : g.span = g.size * g.width := by
  rw [exact_width, mul_div_cancel₀ _ proper.size_pos.ne']

theorem eq_steps (u : ℚ) : u = g.first + g.steps u * g.width := by
  have spans := proper.spans
  have sized := proper.size_pos.ne'
  rw [steps, exact_position, exact_width]
  field_simp
  ring

/-- The edges from the first to the last are read off the ends. -/
theorem valueAt_natCast (inside : k ≤ g.size) : g.valueAt before beyond k = g.edge k := by
  have low : ¬ (k : ℚ) / g.size < 0 := not_lt.mpr (by positivity)
  have high : ¬ 1 < (k : ℚ) / g.size := by
    rw [not_lt, div_le_one proper.size_pos]
    exact_mod_cast inside
  exact (if_neg low).trans (if_neg high)

theorem bin_eq (inside : k < g.size) : g.bin before beyond k = ⟨g.edge k, g.edge (k + 1)⟩ := by
  have next : (k : ℚ) + 1 = (k + 1 : ℕ) := (Nat.cast_succ k).symm
  change Interval.mk (g.valueAt before beyond k) (g.valueAt before beyond (k + 1)) = _
  rw [next, proper.valueAt_natCast inside.le, proper.valueAt_natCast inside]

theorem width_pos_iff : 0 < g.width ↔ 0 < g.span := by
  rw [exact_width, div_pos_iff_of_pos_right proper.size_pos]

/-- A bin between two edges is closed at the one that comes first. -/
theorem contains_edges (u : ℚ) (k : ℕ) :
    (Interval.mk (g.edge k) (g.edge (k + 1))).contains u = true ↔
      if 0 < g.span then g.edge k ≤ u ∧ u < g.edge (k + 1)
      else g.edge (k + 1) < u ∧ u ≤ g.edge k := by
  have ascending : g.edge k ≤ g.edge (k + 1) ↔ 0 < g.span := by
    rw [exact_edge_succ, le_add_iff_nonneg_right, ← proper.width_pos_iff]
    exact proper.width_ne_zero.symm.le_iff_lt
  rw [Interval.contains]
  simp only [ascending]
  split <;> rw [Bool.and_eq_true, decide_eq_true_iff, decide_eq_true_iff]

/-- A bin holds what is its number of whole steps away. -/
theorem contains_iff (u : ℚ) (k : ℕ) :
    (Interval.mk (g.edge k) (g.edge (k + 1))).contains u = true ↔ ⌊g.steps u⌋ = k := by
  obtain ⟨t, count, place⟩ : ∃ t, g.steps u = t ∧ u = g.first + t * g.width :=
    ⟨_, rfl, proper.eq_steps u⟩
  rw [proper.contains_edges, Int.floor_eq_iff, Int.cast_natCast, exact_edge_succ, exact_edge,
    count, place]
  split
  · rename_i ascends
    have wide := proper.width_pos_iff.mpr ascends
    rw [add_le_add_iff_left, mul_le_mul_iff_left₀ wide, add_assoc, add_lt_add_iff_left,
      ← add_one_mul, mul_lt_mul_iff_left₀ wide]
  · rename_i descends
    have wide : g.width < 0 :=
      (not_lt.mp (mt proper.width_pos_iff.mp descends)).lt_of_ne proper.width_ne_zero
    rw [add_le_add_iff_left, mul_le_mul_right_of_neg wide, add_assoc, add_lt_add_iff_left,
      ← add_one_mul, mul_lt_mul_right_of_neg wide]
    exact and_comm

/-! ### Lookup -/

theorem binAt_eq (word : g.size ≤ 2 ^ 63) {z : ℚ} (nonneg : 0 ≤ z) (below : z < 1) :
    g.binAt z = ⌊z * g.size⌋ := by
  have sized := proper.sized
  have short : z * g.size < g.size := mul_lt_of_lt_one_left proper.size_pos below
  have small : (g.size : ℚ) ≤ 2 ^ 63 := by exact_mod_cast word
  have counted : Scalar.toSigned (z * (g.size : ℚ)) = ⌊z * (g.size : ℚ)⌋ :=
    toSigned_of_nonneg (mul_nonneg nonneg proper.size_pos.le) (short.trans_le small)
  have inside : ⌊z * (g.size : ℚ)⌋ < g.size := by
    rw [Int.floor_lt]
    exact_mod_cast short
  change min (Scalar.toSigned (z * (g.size : ℚ))) (Word64.signed (g.size - 1)) = _
  rw [counted, Word64.signed_of_lt (by omega), min_eq_left]
  omega

end Proper

theorem index_of_neg (before : g.position u < 0) : g.index u = -1 := by
  have short : g.position u < 1 := before.trans one_pos
  exact (if_pos short).trans (if_neg (not_le.mpr before))

theorem index_of_one_le (beyond : 1 ≤ g.position u) : g.index u = Word64.signed g.size := by
  rw [index, if_neg (not_lt.mpr beyond)]

theorem index_of_inside (nonneg : 0 ≤ g.position u) (below : g.position u < 1) :
    g.index u = g.binAt (g.position u) :=
  (if_pos below).trans (if_pos nonneg)

theorem indexCircular_eq (g : Grid ℚ) (u : ℚ) :
    g.indexCircular u = g.binAt (g.position u - ⌊g.position u⌋) := by
  have finite : Scalar.isFinite (g.position u) = true := rfl
  rw [indexCircular, if_pos finite]
  rfl

namespace Proper
variable (proper : g.Proper)
include proper

/-- What lies between the ends is in the bin of its whole steps. -/
theorem index_eq (word : g.size ≤ 2 ^ 63) (nonneg : 0 ≤ g.position u) (below : g.position u < 1) :
    g.index u = ⌊g.steps u⌋ := by
  rw [index_of_inside nonneg below, proper.binAt_eq word nonneg below]
  rfl

/-- Between the ends, lookup gives the only bin that holds a number. -/
theorem exists_bin (word : g.size ≤ 2 ^ 63) (nonneg : 0 ≤ g.position u)
    (below : g.position u < 1) : ∃ k < g.size, g.index u = (k : ℕ) ∧
      ∀ j, (Interval.mk (g.edge j) (g.edge (j + 1))).contains u = true ↔ j = k := by
  have low : 0 ≤ ⌊g.steps u⌋ := Int.floor_nonneg.mpr (mul_nonneg nonneg proper.size_pos.le)
  have high : ⌊g.steps u⌋ < g.size := by
    rw [Int.floor_lt]
    exact_mod_cast mul_lt_of_lt_one_left proper.size_pos below
  obtain ⟨k, found⟩ := Int.eq_ofNat_of_zero_le low
  refine ⟨k, by omega, (proper.index_eq word nonneg below).trans found, fun j => ?_⟩
  rw [proper.contains_iff, found, Int.ofNat_inj, eq_comm]

theorem position_add_mul (u : ℚ) (m : ℤ) : g.position (u + m * g.span) = g.position u + m := by
  have spans := proper.spans
  rw [exact_position, exact_position]
  field_simp
  ring

theorem position_reduced (u : ℚ) :
    g.position (g.reduced u) = g.position u - ⌊g.position u⌋ := by
  have shifted := proper.position_add_mul u (-⌊g.position u⌋)
  rw [Int.cast_neg, neg_mul, ← sub_eq_add_neg, ← sub_eq_add_neg] at shifted
  exact shifted

theorem reduced_inside (u : ℚ) :
    0 ≤ g.position (g.reduced u) ∧ g.position (g.reduced u) < 1 := by
  rw [proper.position_reduced]
  exact ⟨Int.fract_nonneg _, Int.fract_lt_one _⟩

/-- A grid that repeats looks up what lies in the range as one that does not. -/
theorem indexCircular_eq_index (u : ℚ) : g.indexCircular u = g.index (g.reduced u) := by
  obtain ⟨nonneg, below⟩ := proper.reduced_inside u
  rw [indexCircular_eq, index_of_inside nonneg below, proper.position_reduced]

theorem reduced_add_mul (u : ℚ) (m : ℤ) : g.reduced (u + m * g.span) = g.reduced u := by
  rw [reduced, reduced, proper.position_add_mul, Int.floor_add_intCast]
  push_cast
  ring

theorem edge_size : g.edge g.size = g.first + g.span := by
  rw [exact_edge, proper.span_eq]

theorem span_neg (descends : ¬ 0 < g.span) : g.span < 0 :=
  (not_lt.mp descends).lt_of_ne proper.spans

/-- What lies before the first edge in the direction of the grid has a negative position. -/
theorem position_neg_iff (u : ℚ) :
    g.position u < 0 ↔ if 0 < g.span then u < g.edge 0 else g.edge 0 < u := by
  rw [exact_position, edge_zero]
  split
  · rename_i ascends
    rw [div_lt_iff₀ ascends, zero_mul, sub_neg]
  · rename_i descends
    rw [div_lt_iff_of_neg (proper.span_neg descends), zero_mul, sub_pos]

/-- What lies at or beyond the last edge has a position of one or more. -/
theorem one_le_position_iff (u : ℚ) :
    1 ≤ g.position u ↔ if 0 < g.span then g.edge g.size ≤ u else u ≤ g.edge g.size := by
  rw [exact_position, proper.edge_size]
  split
  · rename_i ascends
    rw [le_div_iff₀ ascends, one_mul, le_sub_iff_add_le']
  · rename_i descends
    rw [le_div_iff_of_neg (proper.span_neg descends), one_mul, sub_le_iff_le_add']

end Proper

/-! ### Lookup inverts the bins -/

/-- Lookup and the bins between the ends are inverse to each other, on the line and when
the grid repeats. -/
structure InvertsBins (g : Grid ℚ) (before beyond : ℚ) : Prop where
  /-- A bin is closed at the edge that comes first in the direction of the grid. -/
  closed : ∀ k < g.size, ∀ u, (g.bin before beyond k).contains u = true ↔
    if 0 < g.span then g.valueAt before beyond k ≤ u ∧ u < g.valueAt before beyond (k + 1)
    else g.valueAt before beyond (k + 1) < u ∧ u ≤ g.valueAt before beyond k
  inside : ∀ u, 0 ≤ g.position u → g.position u < 1 → ∃ k < g.size, g.index u = (k : ℕ) ∧
    ∀ j < g.size, (g.bin before beyond j).contains u = true ↔ j = k
  front : ∀ u, (if 0 < g.span then u < g.valueAt before beyond 0
    else g.valueAt before beyond 0 < u) → g.index u = -1
  behind : ∀ u, (if 0 < g.span then g.valueAt before beyond g.size ≤ u
    else u ≤ g.valueAt before beyond g.size) → g.index u = g.size
  periodic : ∀ u (m : ℤ), g.indexCircular (u + m * g.span) = g.indexCircular u
  wrapped : ∀ u, ∃ k < g.size, g.indexCircular u = (k : ℕ) ∧
    ∀ j < g.size, (g.repeatedBin j).contains (g.reduced u) = true ↔ j = k

theorem Proper.valueAt_zero (proper : g.Proper) : g.valueAt before beyond 0 = g.edge 0 := by
  have first : g.valueAt before beyond (0 : ℕ) = g.edge 0 := proper.valueAt_natCast g.size.zero_le
  rwa [Nat.cast_zero] at first

/-- The size that lookup gives is the size only if it is a signed word. -/
theorem InvertsBins.size_lt (inverts : g.InvertsBins before beyond) (proper : g.Proper) :
    g.size < 2 ^ 63 := by
  have reaches : 1 ≤ g.position (g.edge g.size) := by
    rw [proper.one_le_position_iff]
    split <;> exact le_rfl
  have size := inverts.behind (g.edge g.size) (by
    rw [proper.valueAt_natCast le_rfl]
    split <;> exact le_rfl)
  rw [index_of_one_le reaches] at size
  exact Word64.signed_eq_self_iff.mp size

theorem Proper.invertsBins (proper : g.Proper) (word : g.size < 2 ^ 63) :
    g.InvertsBins before beyond := by
  refine ⟨?closed, ?inside, ?front, ?behind, ?periodic, ?wrapped⟩
  case closed =>
    intro k inside u
    have next : (k : ℚ) + 1 = (k + 1 : ℕ) := (Nat.cast_succ k).symm
    rw [proper.bin_eq inside, next, proper.valueAt_natCast inside.le,
      proper.valueAt_natCast inside]
    exact proper.contains_edges u k
  case inside =>
    intro u nonneg below
    obtain ⟨k, inside, found, only⟩ := proper.exists_bin word.le nonneg below
    refine ⟨k, inside, found, fun j within => ?_⟩
    rw [proper.bin_eq within]
    exact only j
  case front =>
    intro u outside
    rw [proper.valueAt_zero, ← proper.position_neg_iff] at outside
    exact index_of_neg outside
  case behind =>
    intro u outside
    rw [proper.valueAt_natCast le_rfl, ← proper.one_le_position_iff] at outside
    rw [index_of_one_le outside, Word64.signed_of_lt word]
  case periodic =>
    intro u m
    rw [proper.indexCircular_eq_index, proper.indexCircular_eq_index, proper.reduced_add_mul]
  case wrapped =>
    intro u
    obtain ⟨nonneg, below⟩ := proper.reduced_inside u
    obtain ⟨k, inside, found, only⟩ := proper.exists_bin word.le nonneg below
    refine ⟨k, inside, (proper.indexCircular_eq_index u).trans found, fun j _ => ?_⟩
    rw [repeatedBin_eq]
    exact only j

/-- Lookup inverts the bins exactly if their number is a signed word. -/
theorem invertsBins_iff (proper : g.Proper) : g.InvertsBins before beyond ↔ g.size < 2 ^ 63 :=
  ⟨fun inverts => inverts.size_lt proper, proper.invertsBins⟩

/-- Four bins from 2 down to -1. -/
theorem invertsBins_descending :
    (⟨4, 2, -3⟩ : Grid ℚ).Proper ∧ (⟨4, 2, -3⟩ : Grid ℚ).InvertsBins 0 0 := by
  have proper : (⟨4, 2, -3⟩ : Grid ℚ).Proper := ⟨by decide, by decide⟩
  exact ⟨proper, (invertsBins_iff proper).mpr (by decide)⟩

/-- What lies beyond more bins than there are signed words is not counted as such. -/
theorem not_invertsBins_wide : ¬ ∀ g : Grid ℚ, g.Proper → g.InvertsBins 0 0 := by
  intro inverts
  have proper : (⟨2 ^ 63 + 4096, 0, 1⟩ : Grid ℚ).Proper := ⟨by decide, by decide⟩
  exact absurd ((inverts _ proper).size_lt proper) (by decide)

end Grid
end Binning
