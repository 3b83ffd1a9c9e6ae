import Binning.Proofs.Binary64.Range
import Binning.Proofs.Law.OuterEdges

/-! Even bins as they are accepted and as ranges of them are cut out. What is accepted has
some bins, a finite first edge and a span that is not zero; the span is infinite if the ends
are too far apart. A cut takes the edges at its ends for the new ends and checks nothing, so
it keeps a law in order exactly if these edges are finite, differ, and have a finite
difference. -/
namespace Binning
open Results Binary64

namespace Grid
variable {g : Grid Float} {z u : Float} {k lo hi merge : ℕ}

/-- Edge `k` for a cut: an end as it stands, any other edge as it is read. -/
def cutAt (g : Grid Float) (k : ℕ) : Float :=
  if k = 0 then g.first else if k = g.size then g.first + g.span else g.edge k

theorem slice_all (g : Grid Float) (merge : ℕ) :
    g.slice 0 g.size merge = ⟨g.size / merge, g.first, g.span⟩ :=
  if_pos ⟨rfl, rfl⟩

theorem slice_eq (some_bin : lo < hi) (inside : hi ≤ g.size) (part : ¬ (lo = 0 ∧ hi = g.size)) :
    g.slice lo hi merge = ⟨(hi - lo) / merge, g.cutAt lo, g.cutAt hi - g.cutAt lo⟩ := by
  have some_hi : hi ≠ 0 := by omega
  have inner : lo ≠ g.size := by omega
  simp only [slice, part, cutAt, some_hi, inner, if_false]

/-! ### Positions of the edges -/

section
variable (sized : 0 < g.size) (word : g.size < 2 ^ 64) (inside : k ≤ g.size)
include sized word inside

/-- The part of the span that is in front of an edge. -/
theorem share_of_edge : isFinite (ofNat k / ofNat g.size) = true ∧
    0 ≤ extent (ofNat k / ofNat g.size) ∧ extent (ofNat k / ofNat g.size) ≤ oneUnits := by
  obtain ⟨n, some_bins, _, size⟩ := exists_pos_denotes_ofNat sized word
  obtain ⟨j, _, small, number⟩ := exists_denotes_ofNat (n := k) (by omega)
  have one : (0 : ℚ) < oneUnits := Nat.cast_pos.mpr oneUnits_pos
  have order : ofNat k ≤ ofNat g.size := by
    refine (nearest_ofNat (by omega)).le (nearest_ofNat word) ?_ fun same => ?_
    · exact mul_le_mul_of_nonneg_right (by exact_mod_cast inside) one.le
    · rw [Nat.cast_injective (mul_right_cancel₀ one.ne' same)]
  have order := (number.le_iff size).mp order
  have divisor : (0 : ℤ) < n := by exact_mod_cast some_bins
  obtain ⟨p, found⟩ := number.finite_div size divisor (by simpa using small)
  have nearest := number.nearest_div size divisor.ne'
  refine ⟨isFinite_of_parts? found, ?_, ?_⟩
  · rw [← extent_zero]
    refine nearest.le_extent rfl ?_
    rw [extent_zero]
    positivity
  · have unit : extent 1 = oneUnits := by rw [denotes_one.extent, Int.cast_one, one_mul]
    rw [← unit]
    refine nearest.extent_le rfl ?_
    rw [unit]
    refine mul_le_of_le_one_left one.le ?_
    rw [div_le_one (by exact_mod_cast divisor)]
    exact_mod_cast order

theorem valueAt_eq_edge {before beyond : Float} :
    g.valueAt before beyond (ofNat k) = g.edge k := by
  obtain ⟨finite, low, high⟩ := share_of_edge sized word inside
  have defined := not_isNaN_of_isFinite finite
  have nonneg : ¬ ofNat k / ofNat g.size < 0 := by
    rw [lt_iff_extent defined rfl, extent_zero]
    exact not_lt.mpr low
  have short : ¬ 1 < ofNat k / ofNat g.size := by
    rw [lt_iff_extent rfl defined, denotes_one.extent, Int.cast_one, one_mul]
    exact not_lt.mpr high
  exact (if_neg nonneg).trans (if_neg short)

end

/-! ### Edges -/

/-- What is left of one. -/
theorem rest_of_share (finite : isFinite z = true) (low : 0 ≤ extent z)
    (high : extent z ≤ oneUnits) : isFinite (1 - z) = true ∧ Nearest (1 - z) (oneUnits - extent z) ∧
      0 ≤ extent (1 - z) ∧ extent (1 - z) ≤ oneUnits := by
  have unit : extent 1 = oneUnits := by rw [denotes_one.extent, Int.cast_one, one_mul]
  have finite_one : isFinite 1 = true := rfl
  have nearest := nearest_difference finite_one finite
  rw [unit] at nearest
  have one : (0 : ℚ) ≤ oneUnits := Nat.cast_nonneg _
  refine ⟨?_, nearest, ?_, ?_⟩
  · refine nearest.isFinite_of_abs_le finite_one ?_
    rw [unit, abs_of_nonneg (by linarith), abs_of_nonneg one]
    linarith
  · rw [← extent_zero]
    exact nearest.le_extent rfl (by rw [extent_zero]; linarith)
  · rw [← unit]
    exact nearest.extent_le rfl (by rw [unit]; linarith)

theorem between_eq (g : Grid Float) (z : Float) :
    g.between z = (1 - z) * g.first + z * (g.first + g.span) := rfl

/-- An edge between two finite ends is a number. -/
theorem defined_between (share : isFinite z = true) (low : 0 ≤ extent z)
    (high : extent z ≤ oneUnits) (first : isFinite g.first = true)
    (last : isFinite (g.first + g.span) = true) : (g.between z).isNaN = false := by
  obtain ⟨finite, _, nonneg, short⟩ := rest_of_share share low high
  have left := isFinite_mul finite nonneg short first
  have right := isFinite_mul share low high last
  rw [between_eq]
  exact (nearest_sum left right).defined

/-- The edges are numbers exactly if the last end is finite; the first of them is none if
the ends are too far apart to be added up. -/
theorem defined_edges_iff (sized : 0 < g.size) (word : g.size < 2 ^ 64)
    (first : isFinite g.first = true) :
    (∀ k ≤ g.size, (g.edge k).isNaN = false) ↔ isFinite (g.first + g.span) = true := by
  constructor
  · intro defined
    by_contra unbounded
    have zero : (ofNat 0 / ofNat g.size == 0) = true :=
      position_first sized word (by decide)
    have none := isNaN_zero_mul zero (Bool.not_eq_true _ ▸ unbounded)
    have edge := defined 0 (Nat.zero_le _)
    change ((1 - ofNat 0 / ofNat g.size) * g.first +
      ofNat 0 / ofNat g.size * (g.first + g.span)).isNaN = false at edge
    rw [isNaN_add_right _ none] at edge
    contradiction
  · intro last k inside
    obtain ⟨share, low, high⟩ := share_of_edge sized word inside
    exact defined_between share low high first last

/-- Where the grid repeats, its edges need no last end. -/
theorem defined_along (sized : 0 < g.size) (word : g.size < 2 ^ 64)
    (first : isFinite g.first = true) (span : isFinite g.span = true) (inside : k ≤ g.size) :
    (g.along (ofNat k / ofNat g.size)).isNaN = false := by
  obtain ⟨share, low, high⟩ := share_of_edge sized word inside
  exact (nearest_sum first (isFinite_mul share low high span)).defined

/-- Every number has a position, as the span divides it. -/
theorem defined_position (first : isFinite g.first = true) (span : isFinite g.span = true)
    (nonzero : ¬ (g.span == 0) = true) (defined : u.isNaN = false) :
    (g.position u).isNaN = false := by
  refine defined_div ?_ span nonzero
  obtain ⟨q, found⟩ := Option.isSome_iff_exists.mp first
  rcases cases_of_defined defined with ⟨p, number⟩ | rfl | rfl
  · exact (nearest_sub number found).defined
  · change (infinity - g.first).isNaN = false
    rw [infinity_sub found]
    rfl
  · change (-infinity - g.first).isNaN = false
    rw [neg_infinity_sub found]
    rfl

end Grid

/-! ### Laws -/

namespace Regular
variable {r : Regular} {bins lo hi merge : ℕ} {start stop : Float} {t : Transform}

structure WellFormed (r : Regular) : Prop where
  sized : 1 ≤ r.size
  first : isFinite r.grid.first = true
  span : isFinite r.grid.span = true
  nonzero : ¬ (r.grid.span == 0) = true

/-- What is accepted lacks a finite span at most. -/
theorem wellFormed_of_new_iff (made : new bins start stop t = .ok r) :
    r.WellFormed ↔ isFinite (t.forward stop - t.forward start) = true := by
  obtain ⟨sized, finite, _, nonzero, rfl⟩ := new_eq_ok made
  exact ⟨WellFormed.span, fun span => ⟨sized, finite, span, nonzero⟩⟩

/-- The edges at the ends of a range can be the ends of a law. -/
def TellsApart (r : Regular) (lo hi : ℕ) : Prop :=
  lo = 0 ∧ hi = r.size ∨ isFinite (r.grid.cutAt lo) = true ∧ isFinite (r.grid.cutAt hi) = true ∧
    ¬ (r.grid.cutAt hi == r.grid.cutAt lo) = true ∧
    isFinite (r.grid.cutAt hi - r.grid.cutAt lo) = true

/-- A range that can be cut out: it has some bin and is in range, and the groups divide it. -/
structure Range (r : Regular) (lo hi merge : ℕ) : Prop where
  some_bin : lo < hi
  inside : hi ≤ r.size
  positive : 0 < merge
  divides : (hi - lo) % merge = 0

theorem Range.sized (range : r.Range lo hi merge) : 1 ≤ (r.slice lo hi merge).size := by
  obtain ⟨some_bin, _, positive, divides⟩ := range
  rw [size_slice positive divides]
  refine (lt_ceilDiv_iff positive).mpr ?_
  omega

theorem Range.wellFormed_iff (range : r.Range lo hi merge) (formed : r.WellFormed) :
    (r.slice lo hi merge).WellFormed ↔ r.TellsApart lo hi := by
  have sized := range.sized
  by_cases part : lo = 0 ∧ hi = r.size
  · obtain ⟨rfl, rfl⟩ := part
    have cut : (r.slice 0 r.size merge).grid = _ := r.grid.slice_all merge
    refine iff_of_true ⟨sized, ?_, ?_, ?_⟩ (.inl ⟨rfl, rfl⟩)
    · rw [cut]
      exact formed.first
    · rw [cut]
      exact formed.span
    · rw [cut]
      exact formed.nonzero
  · have cut : (r.slice lo hi merge).grid = _ := Grid.slice_eq range.some_bin range.inside part
    constructor
    · rintro ⟨_, first, span, nonzero⟩
      rw [cut] at first span nonzero
      have last := isFinite_of_sub span first
      rw [sub_beq_zero_iff last first] at nonzero
      exact .inr ⟨first, last, nonzero, span⟩
    · rintro (whole | ⟨first, last, apart, span⟩)
      · exact absurd whole part
      · refine ⟨sized, ?_, ?_, ?_⟩
        · rwa [cut]
        · rwa [cut]
        · rwa [cut, sub_beq_zero_iff last first]

end Regular

/-- Even bins are cut out of even bins. -/
theorem Axis.exists_range {a new : Axis} {r : Regular} {lo hi merge : ℕ}
    (cut : a.slice lo hi merge = .ok new) (law : new.law = .regular r) :
    ∃ s, a.law = .regular s ∧ s.Range lo hi merge ∧ r = s.slice lo hi merge := by
  obtain ⟨some_bin, inside, positive, _⟩ := size_of_slice cut
  simp only [slice, guard_eq_ok, bind_eq_ok, pure_eq_ok] at cut
  obtain ⟨_, new_law, cut, rfl⟩ := cut
  subst law
  unfold sliceLaw at cut
  unfold size at inside cut
  cases old : a.law with
  | regular s =>
    simp only [old] at cut inside
    split at cut
    · rw [throw_ite_eq_ok, pure_eq_ok] at cut
      obtain ⟨full, same⟩ := cut
      simp only [not_or, not_not] at full
      obtain ⟨rfl, rfl, divides⟩ := full
      exact ⟨s, rfl, ⟨some_bin, inside, positive, divides⟩, (Law.regular.inj same).symm⟩
    · split at cut
      · rename_i divides
        cases cut
        exact ⟨s, rfl, ⟨some_bin, inside, positive, divides⟩, rfl⟩
      · rw [map_eq_ok] at cut
        obtain ⟨_, _, same⟩ := cut
        contradiction
  | edges e =>
    simp only [old] at cut
    cases cut
  | integer s =>
    simp only [old, throw_ite_eq_ok, pure_eq_ok] at cut
    obtain ⟨_, same⟩ := cut
    contradiction
  | category c =>
    simp only [old, throw_ite_eq_ok, pure_eq_ok] at cut
    obtain ⟨_, same⟩ := cut
    contradiction

end Binning
