import Binning.Proofs.Law.EvenCuts

/-! Even bins that no cut collapses. Every edge that is read is a few last places off the
exact one, and every cut adds as much to the ends. A law has no more cuts before it than bins
that it has lost, so bins wider than as many places stay apart over every run of cuts. -/
namespace Binning
open Binary64

namespace Grid
variable {g : Grid Float} {k : ℕ} {T : ℕ}

theorem abs_le_of_off {x v b d : ℚ} (off : |x - v| ≤ d) (bound : |v| ≤ b) : |x| ≤ b + d := by
  have triangle := abs_add_le (x - v) v
  rw [sub_add_cancel] at triangle
  linarith

theorem abs_mul_le {a b c d : ℚ} (left : |a| ≤ c) (right : |b| ≤ d) : |a * b| ≤ c * d := by
  rw [abs_mul]
  exact mul_le_mul left right (abs_nonneg _) ((abs_nonneg _).trans left)

/-- What is between two values is in their bounds. -/
theorem abs_between_le {a b c ζ : ℚ} (low : 0 ≤ ζ) (high : ζ ≤ 1) (left : |a| ≤ c)
    (right : |b| ≤ c) : |(1 - ζ) * a + ζ * b| ≤ c := by
  rw [abs_le] at *
  constructor <;> nlinarith

theorem ratio_le_one {j n : ℕ} (inside : j ≤ n) : (j : ℚ) / n ≤ 1 :=
  div_le_one_of_le₀ (by exact_mod_cast inside) (Nat.cast_nonneg n)

/-- The places that an edge is off: half a one from each product, from their sum and from the
last end, and an eighth of one wherever a weight is off. -/
theorem weighted_error {F S L l r e ω ζ κ U : ℚ} (sum : |e - (l + r)| ≤ 1 / 2 * U)
    (left : |l - ω * F| ≤ 1 / 2 * U) (right : |r - ζ * L| ≤ 1 / 2 * U)
    (rest : |ω - (1 - ζ)| ≤ 1 / 2 ^ 54) (share : |ζ - κ| ≤ 1 / 2 ^ 54)
    (last : |L - (F + S)| ≤ 1 / 2 * U) (weight : |ζ| ≤ 1) (bound : |F| ≤ 2 ^ 51 * U)
    (other : |F + S| ≤ 2 ^ 51 * U) (place : 0 < U) : |e - (F + κ * S)| ≤ 3 * U := by
  have first := abs_mul_le rest bound
  have second := abs_mul_le share bound
  have third := abs_mul_le weight last
  have fourth := abs_mul_le share other
  have parts : e - (F + κ * S) = (e - (l + r)) + (l - ω * F) + (r - ζ * L) +
      (ω - (1 - ζ)) * F - (ζ - κ) * F + ζ * (L - (F + S)) + (ζ - κ) * (F + S) := by ring
  rw [abs_le] at sum left right first second third fourth
  rw [parts, abs_le]
  constructor <;> linarith

/-- The number is within so many places of the value. -/
def Near (x : Float) (v places : ℚ) (T : ℕ) : Prop :=
  isFinite x = true ∧ |extent x - v| ≤ places * 2 ^ T

theorem near_sum {x y : Float} (inside : T ≤ 2044) (finite : isFinite x = true)
    (finite_other : isFinite y = true) (bound : |extent x + extent y| ≤ 2 ^ 53 * 2 ^ T) :
    Near (x + y) (extent x + extent y) (1 / 2) T := by
  have nearest := nearest_sum finite finite_other
  have error := nearest.error inside bound
  exact ⟨nearest.isFinite_of_bound inside bound, by linarith⟩

/-- The difference of two ends is rounded by half a place. -/
theorem near_difference {x y : Float} (inside : T ≤ 2044) (finite : isFinite x = true)
    (finite_other : isFinite y = true) (bound : |extent x| ≤ 2 ^ 51 * 2 ^ T)
    (other : |extent y| ≤ 2 ^ 51 * 2 ^ T) : Near (y - x) (extent y - extent x) (1 / 2) T := by
  have nearest := nearest_difference finite_other finite
  have place : (0 : ℚ) < 2 ^ T := by positivity
  have triangle := abs_sub (extent y) (extent x)
  refine ⟨nearest.isFinite_of_bound inside (by linarith), ?_⟩
  have error := nearest.error inside (by linarith)
  linarith

/-! ### Shares of the ends -/

theorem abs_share_le {z : Float} (low : 0 ≤ extent z) (high : extent z ≤ oneUnits) :
    |extent z / oneUnits| ≤ 1 := by
  have one : (0 : ℚ) < oneUnits := Nat.cast_pos.mpr oneUnits_pos
  rw [abs_of_nonneg (div_nonneg low one.le)]
  exact (div_le_one one).mpr high

theorem share_error (sized : 0 < g.size) (small : g.size < 2 ^ 53) (inside : k ≤ g.size) :
    |extent (ofNat k / ofNat g.size) / oneUnits - k / g.size| ≤ 1 / 2 ^ 54 := by
  have one : (0 : ℚ) < oneUnits := Nat.cast_pos.mpr oneUnits_pos
  have ratio : (k : ℚ) / g.size ≤ 1 := ratio_le_one inside
  have share := (denotes_ofNat (n := k) (by omega)).nearest_div (denotes_ofNat small)
    (by exact_mod_cast sized.ne')
  rw [Int.cast_natCast, Int.cast_natCast] at share
  have error := share.error_of_share (by positivity) (mul_le_of_le_one_left one.le ratio)
  rwa [mul_div_cancel_right₀ _ one.ne'] at error

theorem rest_error {z : Float} (rest : Nearest (1 - z) (oneUnits - extent z))
    (low : 0 ≤ extent z) (high : extent z ≤ oneUnits) :
    |extent (1 - z) / oneUnits - (1 - extent z / oneUnits)| ≤ 1 / 2 ^ 54 := by
  have one : (oneUnits : ℚ) ≠ 0 := Nat.cast_ne_zero.mpr oneUnits_pos.ne'
  have error := rest.error_of_share (by linarith) (by linarith)
  rwa [sub_div, div_self one] at error

/-- A share of an end is no larger than it, and is rounded by half a place. -/
theorem near_mul {z y : Float} (inside : T ≤ 2044) (share : isFinite z = true)
    (low : 0 ≤ extent z) (high : extent z ≤ oneUnits) (finite : isFinite y = true)
    (bound : |extent y| ≤ 2 ^ 52 * 2 ^ T) :
    Near (z * y) (extent z / oneUnits * extent y) (1 / 2) T ∧
      |extent z / oneUnits * extent y| ≤ |extent y| := by
  have place : (0 : ℚ) < 2 ^ T := by positivity
  have value : |extent z / oneUnits * extent y| ≤ |extent y| := by
    rw [abs_mul]
    exact mul_le_of_le_one_left (abs_nonneg _) (abs_share_le low high)
  have product := nearest_product share finite
  rw [mul_div_right_comm] at product
  have error := product.error inside (by linarith)
  exact ⟨⟨isFinite_mul share low high finite, by linarith⟩, value⟩

/-! ### One edge -/

/-- The ends of the grid leave two bits above them before the place `T` has 53. -/
structure Fits (g : Grid Float) (T : ℕ) : Prop where
  sized : 0 < g.size
  small : g.size < 2 ^ 53
  place : T ≤ 2044
  finite_first : isFinite g.first = true
  finite_span : isFinite g.span = true
  first : |extent g.first| ≤ 2 ^ 51 * 2 ^ T
  last : |extent g.first + extent g.span| ≤ 2 ^ 51 * 2 ^ T

namespace Fits
variable (fits : g.Fits T)
include fits

theorem near_last : Near (g.first + g.span) (extent g.first + extent g.span) (1 / 2) T := by
  have place : (0 : ℚ) < 2 ^ T := by positivity
  have bound := fits.last
  exact near_sum fits.place fits.finite_first fits.finite_span (by linarith)

theorem near_edge (inside : k ≤ g.size) :
    Near (g.edge k) (extent g.first + k / g.size * extent g.span) 3 T := by
  have small := fits.small
  have bound := fits.first
  have other := fits.last
  have place : (0 : ℚ) < 2 ^ T := by positivity
  obtain ⟨finite_share, low, high⟩ := share_of_edge fits.sized (by omega) inside
  have error_share := share_error fits.sized small inside
  generalize division : ofNat k / ofNat g.size = z at *
  obtain ⟨finite_rest, rest, nonneg, short⟩ := rest_of_share finite_share low high
  obtain ⟨finite_last, last⟩ := fits.near_last
  have large := abs_le_of_off last other
  obtain ⟨⟨finite_left, left⟩, value_left⟩ :=
    near_mul fits.place finite_rest nonneg short fits.finite_first (by linarith)
  obtain ⟨⟨finite_right, right⟩, value_right⟩ :=
    near_mul fits.place finite_share low high finite_last (by linarith)
  have value_left := abs_le_of_off left value_left
  have value_right := abs_le_of_off right value_right
  have value := abs_add_le (extent ((1 - z) * g.first)) (extent (z * (g.first + g.span)))
  obtain ⟨finite, sum⟩ := near_sum fits.place finite_left finite_right (by linarith)
  change Near (g.between (ofNat k / ofNat g.size)) _ _ _
  rw [division, between_eq]
  exact ⟨finite, weighted_error sum left right (rest_error rest low high) error_share last
    (abs_share_le low high) bound other place⟩

end Fits

/-! ### Cuts of cuts -/

/-- Ends within `2 ^ 50` places, with bins that are wider than eight places for each of
them. -/
structure Wide (bins : ℕ) (F S : ℚ) (T : ℕ) : Prop where
  place : T ≤ 2044
  first : |F| ≤ 2 ^ 50 * 2 ^ T
  last : |F + S| ≤ 2 ^ 50 * 2 ^ T
  wide : 8 * bins ^ 2 * 2 ^ T < |S|

namespace Wide
variable {bins j : ℕ} {F S : ℚ} (wide : Wide bins F S T)
include wide

theorem few : bins < 2 ^ 24 := by
  have place : (0 : ℚ) < 2 ^ T := by positivity
  have many : |S| ≤ 2 ^ 51 * 2 ^ T := by
    have triangle := abs_sub (F + S) F
    rw [add_sub_cancel_left] at triangle
    linarith [wide.first, wide.last]
  have square : 8 * (bins : ℚ) ^ 2 * 2 ^ T < 2 ^ 51 * 2 ^ T := wide.wide.trans_le many
  have square := lt_of_mul_lt_mul_right square place.le
  have square : 8 * bins ^ 2 < 2 ^ 51 := by exact_mod_cast square
  nlinarith

theorem abs_edge_le (inside : j ≤ bins) : |F + j * (S / bins)| ≤ 2 ^ 50 * 2 ^ T := by
  have weights : F + j * (S / bins) = (1 - j / bins) * F + j / bins * (F + S) := by ring
  rw [weights]
  exact abs_between_le (by positivity) (ratio_le_one inside) wide.first wide.last

theorem abs_le_of_near (inside : j ≤ bins) {x places : ℚ}
    (near : |x - (F + j * (S / bins))| ≤ places * 2 ^ T) (few : places ≤ 2 ^ 50) :
    |x| ≤ 2 ^ 51 * 2 ^ T := by
  have place : (0 : ℚ) < 2 ^ T := by positivity
  have exact_edge := wide.abs_edge_le inside
  have off := near.trans (mul_le_mul_of_nonneg_right few place.le)
  have bound := abs_le_of_off off exact_edge
  linarith

end Wide

/-- The grid is a part of the exact one from the edge `a` on, in groups of `m` bins. Its ends
are off by four places for each bin that it has less, and four more. -/
structure Part (g : Grid Float) (bins : ℕ) (F S : ℚ) (T a m : ℕ) : Prop where
  sized : 0 < g.size
  merged : 0 < m
  inside : a + g.size * m ≤ bins
  finite_first : isFinite g.first = true
  finite_span : isFinite g.span = true
  first : |extent g.first - (F + a * (S / bins))| ≤ 4 * (bins - g.size + 1) * 2 ^ T
  last : |extent g.first + extent g.span - (F + (a + g.size * m : ℕ) * (S / bins))| ≤
    4 * (bins - g.size + 1) * 2 ^ T

namespace Part
variable {bins a m lo hi merge : ℕ} {F S : ℚ} (part : g.Part bins F S T a m)
  (wide : Wide bins F S T)
include part

theorem size_le : g.size ≤ bins :=
  (Nat.le_mul_of_pos_right g.size part.merged).trans (le_of_add_le_right part.inside)

/-- The edges are among those of the exact grid. -/
theorem edge_le {k : ℕ} (inside : k ≤ g.size) : a + k * m ≤ bins :=
  (Nat.add_le_add_left (Nat.mul_le_mul_right m inside) a).trans part.inside

/-- All of the grid in larger groups keeps its ends. -/
theorem slice_whole (merged : 0 < merge) (some_group : 0 < g.size / merge)
    (groups : g.size / merge * (m * merge) = g.size * m) :
    (⟨g.size / merge, g.first, g.span⟩ : Grid Float).Part bins F S T a (m * merge) := by
  have place : (0 : ℚ) < 2 ^ T := by positivity
  have fewer : ((g.size / merge : ℕ) : ℚ) ≤ g.size := by exact_mod_cast Nat.div_le_self _ _
  have lost : (4 * ((bins : ℚ) - g.size + 1)) * 2 ^ T ≤
      4 * (bins - (g.size / merge : ℕ) + 1) * 2 ^ T :=
    mul_le_mul_of_nonneg_right (by linarith) place.le
  refine ⟨some_group, Nat.mul_pos part.merged merged, groups ▸ part.inside, part.finite_first,
    part.finite_span, part.first.trans lost, ?_⟩
  rw [groups]
  exact part.last.trans lost

include wide

theorem few_places : 4 * ((bins : ℚ) - g.size + 1) + 3 ≤ 2 ^ 50 := by
  have few : (bins : ℚ) < 2 ^ 24 := by exact_mod_cast wide.few
  have some_bins : (0 : ℚ) < g.size := by exact_mod_cast part.sized
  linarith

theorem fits : g.Fits T := by
  have sized := part.sized
  have size := part.size_le
  have few := wide.few
  have places := part.few_places wide
  refine ⟨sized, by omega, wide.place, part.finite_first, part.finite_span, ?_, ?_⟩
  · exact wide.abs_le_of_near (le_of_add_le_left part.inside) part.first (by linarith)
  · exact wide.abs_le_of_near part.inside part.last (by linarith)

theorem near_cutAt {k : ℕ} (inside : k ≤ g.size) :
    Near (g.cutAt k) (F + (a + k * m : ℕ) * (S / bins)) (4 * (bins - g.size + 1) + 3) T := by
  have fits := part.fits wide
  have place : (0 : ℚ) < 2 ^ T := by positivity
  have first := part.first
  have last := part.last
  unfold cutAt
  split
  · rename_i start
    subst start
    rw [Nat.zero_mul, Nat.add_zero]
    exact ⟨part.finite_first, by linarith⟩
  split
  · rename_i stop
    subst stop
    obtain ⟨finite, near⟩ := fits.near_last
    refine ⟨finite, (abs_sub_le _ (extent g.first + extent g.span) _).trans ?_⟩
    linarith
  · obtain ⟨finite, near⟩ := fits.near_edge inside
    refine ⟨finite, (abs_sub_le _ (extent g.first + k / g.size * extent g.span) _).trans ?_⟩
    -- between the ends the exact edges are off no more than at the ends
    have some_bins : (0 : ℚ) < g.size := by exact_mod_cast part.sized
    have weights : extent g.first + k / g.size * extent g.span -
        (F + (a + k * m : ℕ) * (S / bins)) =
        (1 - k / g.size) * (extent g.first - (F + a * (S / bins))) + k / g.size *
          (extent g.first + extent g.span - (F + (a + g.size * m : ℕ) * (S / bins))) := by
      push_cast
      field_simp
      ring
    have off := abs_between_le (by positivity) (ratio_le_one inside) first last
    rw [← weights] at off
    linarith

theorem abs_cutAt_le {k : ℕ} (inside : k ≤ g.size) :
    |extent (g.cutAt k)| ≤ 2 ^ 51 * 2 ^ T := by
  obtain ⟨_, near⟩ := part.near_cutAt wide inside
  exact wide.abs_le_of_near (part.edge_le inside) near (part.few_places wide)

/-- Less than the grid takes two edges for the ends, and rounds their difference once. -/
theorem slice_part {count n : ℕ} (some_group : 0 < count) (fewer : count < g.size)
    (merged : 0 < n) (some_bin : lo < hi) (inside : hi ≤ g.size)
    (groups : a + lo * m + count * n = a + hi * m) :
    (⟨count, g.cutAt lo, g.cutAt hi - g.cutAt lo⟩ : Grid Float).Part bins F S T (a + lo * m) n := by
  have place : (0 : ℚ) < 2 ^ T := by positivity
  have start : lo ≤ g.size := some_bin.le.trans inside
  obtain ⟨finite, first⟩ := part.near_cutAt wide start
  obtain ⟨finite_last, last⟩ := part.near_cutAt wide inside
  obtain ⟨finite_span, span⟩ := near_difference wide.place finite finite_last
    (part.abs_cutAt_le wide start) (part.abs_cutAt_le wide inside)
  have less : (count : ℚ) + 1 ≤ g.size := by exact_mod_cast fewer
  have lost : (4 * ((bins : ℚ) - g.size + 1) + 4) * 2 ^ T ≤ 4 * (bins - count + 1) * 2 ^ T :=
    mul_le_mul_of_nonneg_right (by linarith) place.le
  refine ⟨some_group, merged, groups ▸ part.edge_le inside, finite, finite_span, by linarith, ?_⟩
  have ends : extent (g.cutAt lo) + extent (g.cutAt hi - g.cutAt lo) -
      (F + (a + hi * m : ℕ) * (S / bins)) =
      (extent (g.cutAt hi - g.cutAt lo) - (extent (g.cutAt hi) - extent (g.cutAt lo))) +
        (extent (g.cutAt hi) - (F + (a + hi * m : ℕ) * (S / bins))) := by ring
  rw [groups, ends]
  refine (abs_add_le _ _).trans ?_
  linarith

theorem slice (some_bin : lo < hi) (inside : hi ≤ g.size) (positive : 0 < merge)
    (divides : (hi - lo) % merge = 0) :
    (g.slice lo hi merge).Part bins F S T (a + lo * m) (m * merge) := by
  have whole_groups : merge ∣ hi - lo := Nat.dvd_of_mod_eq_zero divides
  have some_group : 0 < (hi - lo) / merge :=
    Nat.div_pos (Nat.le_of_dvd (by omega) whole_groups) positive
  have groups : (hi - lo) / merge * (m * merge) = (hi - lo) * m := by
    rw [Nat.mul_comm m, ← Nat.mul_assoc, Nat.div_mul_cancel whole_groups]
  by_cases whole : lo = 0 ∧ hi = g.size
  · obtain ⟨rfl, rfl⟩ := whole
    rw [slice_all, Nat.zero_mul, Nat.add_zero]
    rw [Nat.sub_zero] at some_group groups
    exact part.slice_whole positive some_group groups
  · rw [slice_eq some_bin inside whole]
    have fewer : (hi - lo) / merge < g.size := by
      have less := Nat.div_le_self (hi - lo) merge
      omega
    refine part.slice_part wide some_group fewer (Nat.mul_pos part.merged positive) some_bin
      inside ?_
    rw [groups, Nat.add_assoc, ← Nat.add_mul, Nat.add_sub_cancel' some_bin.le]

/-- The ends are off by less than one bin. -/
theorem nonzero : ¬ (g.span == 0) = true := by
  intro zero
  have nothing := extent_of_beq_zero zero
  have first := part.first
  have last := part.last
  rw [nothing, add_zero] at last
  have place : (0 : ℚ) < 2 ^ T := by positivity
  have some : (1 : ℚ) ≤ g.size := by exact_mod_cast part.sized
  have steps : (1 : ℚ) ≤ g.size * m := by exact_mod_cast Nat.mul_pos part.sized part.merged
  have many : (0 : ℚ) < bins := by exact_mod_cast part.sized.trans_le part.size_le
  have bin : 8 * bins * 2 ^ T < |S / bins| := by
    rw [abs_div, abs_of_pos many, lt_div_iff₀ many]
    have wide := wide.wide
    linarith
  have ends : g.size * m * (S / bins) = (extent g.first - (F + a * (S / bins))) -
      (extent g.first - (F + (a + g.size * m : ℕ) * (S / bins))) := by
    push_cast
    ring
  have span : |g.size * m * (S / bins)| ≤ 8 * bins * 2 ^ T := by
    rw [ends]
    refine (abs_sub _ _).trans ?_
    nlinarith
  have one : |S / bins| ≤ |g.size * m * (S / bins)| := by
    rw [abs_mul]
    exact le_mul_of_one_le_left (abs_nonneg _) (steps.trans (le_abs_self _))
  linarith

end Part

/-- A grid whose span is rounded once is all of the exact one. -/
theorem part_of_ends {bins : ℕ} {first last : Float} (sized : 0 < bins)
    (finite_first : isFinite first = true) (finite_last : isFinite last = true)
    (wide : Wide bins (extent first) (extent last - extent first) T) :
    (⟨bins, first, last - first⟩ : Grid Float).Part bins (extent first)
      (extent last - extent first) T 0 1 := by
  have place : (0 : ℚ) < 2 ^ T := by positivity
  have many : (bins : ℚ) ≠ 0 := by exact_mod_cast sized.ne'
  have bound := wide.first
  have other := wide.last
  rw [add_sub_cancel] at other
  obtain ⟨finite_span, error⟩ :=
    near_difference wide.place finite_first finite_last (by linarith) (by linarith)
  refine ⟨sized, one_pos, (Nat.zero_add _).trans (Nat.mul_one _) |>.le, finite_first,
    finite_span, ?_, ?_⟩
  · rw [Nat.cast_zero, zero_mul, add_zero, sub_self, abs_zero, sub_self]
    positivity
  · simp only [Nat.zero_add, Nat.mul_one, mul_div_cancel₀ _ many, sub_self]
    rw [add_sub_add_left_eq_sub]
    linarith

end Grid

/-! ### Runs -/

namespace Transform

/-- The inverse has a number for every number. -/
def KeepsNumbers (t : Transform) : Prop :=
  ∀ u : Float, u.isNaN = false → (t.inverse u).isNaN = false

theorem keepsNumbers_id : Transform.id.KeepsNumbers := fun _ defined => defined

theorem keepsNumbers_sqrt : Transform.sqrt.KeepsNumbers := by
  intro u defined
  change (u * u).isNaN = false
  rcases cases_of_defined defined with ⟨p, found⟩ | rfl | rfl
  · exact (nearest_mul found found).defined
  · rfl
  · rfl

end Transform

namespace Regular
variable {r : Regular} {bins : ℕ} {start stop : Float} {t : Transform}
  {allowed : Regular → ℕ → ℕ → Prop}

/-- Laws that cuts reach from the one that is accepted, each range being one of those
allowed. -/
inductive Reached (bins : ℕ) (start stop : Float) (t : Transform)
    (allowed : Regular → ℕ → ℕ → Prop) : Regular → Prop
  | made {r : Regular} : new bins start stop t = .ok r → Reached bins start stop t allowed r
  | cut {r : Regular} {lo hi merge : ℕ} : Reached bins start stop t allowed r →
      r.Range lo hi merge → allowed r lo hi →
      Reached bins start stop t allowed (r.slice lo hi merge)

namespace Reached

theorem sized (reached : Reached bins start stop t allowed r) :
    1 ≤ r.size ∧ r.transform = t := by
  induction reached with
  | made accepted =>
    obtain ⟨sized, _, _, _, rfl⟩ := new_eq_ok accepted
    exact ⟨sized, rfl⟩
  | cut _ range _ ih => exact ⟨range.sized, ih.2⟩

/-- Cuts at edges that are told apart keep a law in order. -/
theorem wellFormed (reached : Reached bins start stop t TellsApart r)
    (span : isFinite (t.forward stop - t.forward start) = true) : r.WellFormed := by
  induction reached with
  | made accepted => exact (wellFormed_of_new_iff accepted).mpr span
  | cut _ range apart ih => exact (range.wellFormed_iff ih).mpr apart

theorem part {T : ℕ} (reached : Reached bins start stop t allowed r)
    (wide : Grid.Wide bins (extent (t.forward start))
      (extent (t.forward stop) - extent (t.forward start)) T) :
    ∃ a m, r.grid.Part bins (extent (t.forward start))
      (extent (t.forward stop) - extent (t.forward start)) T a m := by
  induction reached with
  | made accepted =>
    obtain ⟨sized, finite, bounded, _, rfl⟩ := new_eq_ok accepted
    exact ⟨0, 1, Grid.part_of_ends sized finite bounded wide⟩
  | cut _ range _ ih =>
    obtain ⟨a, m, part⟩ := ih
    exact ⟨_, _, part.slice wide range.some_bin range.inside range.positive range.divides⟩

end Reached

/-- What cuts leave of the order of a law of even bins. -/
structure StaysWellFormed (bins : ℕ) (start stop : Float) (t : Transform) : Prop where
  /-- What is accepted has some bins, a finite first edge, and a span that is a number but
  not zero; only the span can be infinite. -/
  made : ∀ r, new bins start stop t = .ok r → 1 ≤ r.size ∧ isFinite r.grid.first = true ∧
    r.grid.span.isNaN = false ∧ ¬ (r.grid.span == 0) = true ∧
    (r.WellFormed ↔ isFinite (t.forward stop - t.forward start) = true)
  /-- It is not if both ends are within half the range. -/
  halves : -halfRange < t.forward start → t.forward start < halfRange →
    -halfRange < t.forward stop → t.forward stop < halfRange →
    ∀ r, new bins start stop t = .ok r →
      r.WellFormed ∧ isFinite (r.grid.first + r.grid.span) = true
  sized : ∀ r, Reached bins start stop t (fun _ _ _ => True) r → 1 ≤ r.size ∧ r.transform = t
  /-- A cut keeps a law in order exactly if the edges at its ends are told apart. -/
  cut_iff : ∀ r lo hi merge, Reached bins start stop t (fun _ _ _ => True) r → r.WellFormed →
    r.Range lo hi merge → ((r.slice lo hi merge).WellFormed ↔ r.TellsApart lo hi)
  kept : isFinite (t.forward stop - t.forward start) = true →
    ∀ r, Reached bins start stop t TellsApart r → r.WellFormed
  /-- No cut collapses bins that are wide enough, nor those cut out of them. -/
  wide : ∀ T, Grid.Wide bins (extent (t.forward start))
      (extent (t.forward stop) - extent (t.forward start)) T →
    ∀ r, Reached bins start stop t (fun _ _ _ => True) r →
      r.WellFormed ∧ ∀ k ≤ r.size, isFinite (r.innerValue (ofNat k)) = true
  /-- The same cuts are made in an axis. -/
  axes : ∀ (a new : Axis) lo hi merge (r : Regular), a.slice lo hi merge = .ok new →
    new.law = .regular r → 1 ≤ r.size ∧ ∃ s, a.law = .regular s ∧ r = s.slice lo hi merge ∧
      (s.WellFormed → (r.WellFormed ↔ s.TellsApart lo hi))
  /-- The edges of a law in order are numbers exactly if the last end is finite, -/
  edges_iff : ∀ r : Regular, r.WellFormed → r.size < 2 ^ 64 →
    ((∀ k ≤ r.size, (r.innerValue (ofNat k)).isNaN = false) ↔
      isFinite (r.grid.first + r.grid.span) = true)
  /-- those that repeat are in any case, -/
  repeated : ∀ r : Regular, r.WellFormed → r.size < 2 ^ 64 → ∀ k ≤ r.size,
    (r.grid.along (ofNat k / ofNat r.size)).isNaN = false
  /-- and the inverse leaves them numbers unless it is a root or an exponential that does not. -/
  values : ∀ r : Regular, r.transform.KeepsNumbers → ∀ x,
    ((r.innerValue x).isNaN = false → (r.value x).isNaN = false) ∧
    ((r.grid.along (x / ofNat r.size)).isNaN = false → (r.valueCircular x).isNaN = false)
  plain : t = .id ∨ t = .sqrt → t.KeepsNumbers
  /-- Every coordinate that the transform makes a number has a position in a law in order. -/
  lookup : ∀ r : Regular, r.WellFormed → ∀ x, (r.transform.forward x).isNaN = false →
    (r.grid.position (r.transform.forward x)).isNaN = false

theorem innerValue_eq_edge {k : ℕ} (sized : 1 ≤ r.size) (word : r.size < 2 ^ 64)
    (inside : k ≤ r.size) : r.innerValue (ofNat k) = r.grid.edge k := by
  rw [innerValue_eq]
  exact Grid.valueAt_eq_edge sized word inside

theorem within_of_halfRange {x : Float} (low : -halfRange < x) (high : x < halfRange) :
    |extent x| < 4 * eighth := by
  obtain ⟨mirrored, stands⟩ := extent_neg (x := halfRange) rfl
  obtain ⟨_, defined⟩ := defined_of_lt low
  rw [lt_iff_extent mirrored defined, stands, extent_halfRange] at low
  rw [lt_iff_extent defined rfl, extent_halfRange] at high
  exact abs_lt.mpr ⟨low, high⟩

/-- A law of even bins keeps its order over every run of cuts that tell the edges at their
ends apart, and over every run at all if its bins are wide enough. -/
theorem staysWellFormed (bins : ℕ) (start stop : Float) (t : Transform) :
    StaysWellFormed bins start stop t where
  made r accepted := by
    have formed := wellFormed_of_new_iff accepted
    obtain ⟨sized, finite, bounded, nonzero, rfl⟩ := new_eq_ok accepted
    exact ⟨sized, finite, (nearest_difference bounded finite).defined, nonzero, formed⟩
  halves low_first high_first low_last high_last r accepted := by
    have formed := wellFormed_of_new_iff accepted
    obtain ⟨_, finite, bounded, _, rfl⟩ := new_eq_ok accepted
    obtain ⟨span, last⟩ := isFinite_sub_of_half bounded finite
      (within_of_halfRange low_last high_last) (within_of_halfRange low_first high_first)
    exact ⟨formed.mpr span, last⟩
  sized r reached := reached.sized
  cut_iff r lo hi merge _ formed range := range.wellFormed_iff formed
  kept span r reached := reached.wellFormed span
  wide T wide r reached := by
    obtain ⟨a, m, part⟩ := reached.part wide
    have fits := part.fits wide
    refine ⟨⟨part.sized, part.finite_first, part.finite_span, part.nonzero wide⟩, ?_⟩
    intro k inside
    have small : r.size < 2 ^ 53 := fits.small
    rw [innerValue_eq_edge part.sized (by omega) inside]
    exact (fits.near_edge inside).1
  axes a new lo hi merge r cut law := by
    obtain ⟨s, old, range, rfl⟩ := Axis.exists_range cut law
    exact ⟨range.sized, s, old, rfl, range.wellFormed_iff⟩
  edges_iff r formed word := by
    rw [← Grid.defined_edges_iff formed.sized word formed.first]
    refine forall₂_congr fun k inside => ?_
    rw [innerValue_eq_edge formed.sized word inside]
  repeated r formed word k inside :=
    Grid.defined_along formed.sized word formed.first formed.span inside
  values r keeps x := ⟨keeps _, keeps _⟩
  plain := by
    rintro (rfl | rfl)
    · exact Transform.keepsNumbers_id
    · exact Transform.keepsNumbers_sqrt
  lookup r formed x defined :=
    Grid.defined_position formed.first formed.span formed.nonzero defined

/-- Ten bins from zero to one are wide: with a bit to spare for each bit of their number. -/
theorem wellFormed_tenths : Grid.Wide 10 (extent 0) (extent 1 - extent 0) 1024 ∧
    ∀ r, Reached 10 0 1 .id (fun _ _ _ => True) r → r.WellFormed := by
  obtain ⟨T, place⟩ : ∃ T, T = 1024 := ⟨_, rfl⟩
  have bits : 1074 - T = 50 := by omega
  have one : oneUnits = 2 ^ (1074 - T) * 2 ^ T := oneUnits_eq (by omega)
  rw [bits] at one
  have scale : (0 : ℚ) < 2 ^ T := by positivity
  have unit : extent 1 = 2 ^ 50 * 2 ^ T := by
    rw [denotes_one.extent, Int.cast_one, one_mul, one]
    push_cast
    rfl
  have wide : Grid.Wide 10 (extent 0) (extent 1 - extent 0) T := by
    refine ⟨by omega, ?_, ?_, ?_⟩
    · rw [extent_zero, abs_zero]
      positivity
    · rw [add_sub_cancel, unit, abs_of_pos (by positivity)]
    · rw [extent_zero, sub_zero, unit, abs_of_pos (by positivity)]
      refine mul_lt_mul_of_pos_right ?_ scale
      norm_num
  exact ⟨place ▸ wide, fun r reached => ((staysWellFormed 10 0 1 .id).wide T wide r reached).1⟩

/-- Two bins as wide as the range each. -/
def apart : Regular := ⟨⟨2, -halfRange, infinity⟩, .id⟩

/-- One bin to the largest number, from one that is added to the rounded span in excess of
it. -/
def far : Regular :=
  ⟨⟨1, Float.ofBits 0x7CA8000000000000, largest - Float.ofBits 0x7CA8000000000000⟩, .id⟩

/-- Four bins between one and the number after it. -/
def thin : Regular := ⟨⟨4, 1, oneUp - 1⟩, .id⟩

/-- The ends of a law are accepted whether their difference is finite or not; the first edge
is no number if it is not, or if it does not add up with the first end again. A cut may leave
a bin without any width, which as an explicit edge is refused. -/
theorem not_wellFormed :
    new 2 (-halfRange) halfRange .id = .ok apart ∧ ¬ apart.WellFormed ∧
    (apart.innerValue 0).isNaN = true ∧
    new 1 (Float.ofBits 0x7CA8000000000000) largest .id = .ok far ∧ far.WellFormed ∧
    (far.innerValue 0).isNaN = true ∧
    new 4 1 oneUp .id = .ok thin ∧ thin.WellFormed ∧
    thin.slice 0 1 1 = ⟨⟨1, 1, 0⟩, .id⟩ ∧ ¬ (thin.slice 0 1 1).WellFormed ∧
    Axis.slice ⟨.regular thin, .flow, none⟩ 0 3 2 = .error (.config .unorderedEdges) := by
  have cut : thin.slice 0 1 1 = ⟨⟨1, 1, 0⟩, .id⟩ := rfl
  refine ⟨rfl, fun formed => ?_, rfl, rfl, ?_, rfl, rfl, ?_, cut, fun formed => ?_, rfl⟩
  · exact absurd formed.span (by decide)
  · exact ⟨by decide, by decide, by decide, by decide⟩
  · exact ⟨by decide, by decide, by decide, by decide⟩
  · rw [cut] at formed
    exact formed.nonzero rfl

end Regular
end Binning
