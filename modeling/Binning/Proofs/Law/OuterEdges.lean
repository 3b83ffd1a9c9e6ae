import Binning.Proofs.Binary64.Range
import Binning.Proofs.Law.EvenBins
import Binning.Proofs.Law.Lookup
import Binning.Proofs.Results

/-! Edges beyond the ends. In the space of the transform the edge in front of a grid is
one infinity and the edge behind it the other; the inverse brings them back. It keeps them
outside if it sends the lower infinity to its least value. The square and the even powers
do not: they send both infinities to the upper one, and the edge in front is then behind. -/
namespace Binning
open Results Binary64
open Float.Model.UnpackedFloat (Sign)

/-! ### Positions -/

theorem denotes_ofInt_natCast {k : ℕ} (small : k < 2 ^ 53) : Denotes (ofInt k) k := by
  have same : ofInt k = ofNat k := if_pos (Int.natCast_nonneg _)
  rw [same]
  exact denotes_ofNat small

theorem denotes_front : Denotes (ofInt (-1)) (-1) := denotes_one.neg

section
variable {n : ℕ} {x : Float}

theorem position_front (sized : 0 < n) (word : n < 2 ^ 64) : ofInt (-1) / ofNat n < 0 := by
  obtain ⟨m, pos, small, size⟩ := exists_pos_denotes_ofNat sized word
  exact denotes_front.div_lt_zero size (by decide) (by exact_mod_cast pos)
    (by exact_mod_cast small)

theorem position_behind (sized : 0 < n) (small : n + 1 < 2 ^ 53) :
    1 < ofInt (n + 1 : ℕ) / ofNat n := by
  have same : ofInt (n + 1 : ℕ) = ofNat (n + 1) := if_pos (Int.natCast_nonneg _)
  rw [same]
  exact one_lt_div_of_succ sized small

theorem position_first (sized : 0 < n) (word : n < 2 ^ 64) (zero : (x == 0) = true) :
    (x / ofNat n == 0) = true := by
  obtain ⟨m, pos, _, p, found, units⟩ := exists_pos_denotes_ofNat sized word
  refine zero_div_beq_zero zero found ?_
  rw [units]
  exact mul_ne_zero (by exact_mod_cast pos.ne') oneUnits_pos'.ne'

end

/-- What is the number zero, whichever its sign, is between zero and one. -/
theorem inside_of_zero {z : Float} (zero : (z == 0) = true) : ¬ z < 0 ∧ ¬ 1 < z := by
  have defined := not_isNaN_of_beq zero
  have nothing := extent_of_beq_zero zero
  rw [lt_iff_extent defined rfl, lt_iff_extent rfl defined, nothing, extent_zero,
    denotes_one.extent, Int.cast_one, one_mul]
  exact ⟨lt_irrefl _, not_lt.mpr (Nat.cast_nonneg _)⟩

namespace Grid
variable {g : Grid Float} {before beyond x z : Float}

section
variable (sized : 0 < g.size) (word : g.size < 2 ^ 64)
include sized

include word in
theorem valueAt_front : g.valueAt before beyond (ofInt (-1)) = before :=
  if_pos (position_front sized word)

theorem valueAt_behind (small : g.size + 1 < 2 ^ 53) :
    g.valueAt before beyond (ofInt (g.size + 1 : ℕ)) = beyond := by
  have above := position_behind sized small
  have nonneg : ¬ ofInt (g.size + 1 : ℕ) / ofNat g.size < 0 := by
    intro below
    exact absurd (lt_of_lt_of_le above (le_of_lt below)) (by decide)
  exact (if_neg nonneg).trans (if_pos above)

include word in
theorem valueAt_first (zero : (x == 0) = true) :
    g.valueAt before beyond x = g.between (x / ofNat g.size) := by
  obtain ⟨nonneg, short⟩ := inside_of_zero (position_first sized word zero)
  exact (if_neg nonneg).trans (if_neg short)

end

/-- The first edge is the first end, or NaN if the last end is beyond all numbers. -/
theorem between_zero (zero : (z == 0) = true) (finite : isFinite g.first = true) :
    (g.between z).isNaN = true ∨ (g.between z == g.first) = true := by
  change ((1 - z) * g.first + z * (g.first + g.span)).isNaN = true ∨
    ((1 - z) * g.first + z * (g.first + g.span) == g.first) = true
  cases last : isFinite (g.first + g.span) with
  | true =>
    right
    rw [add_zero_beq (zero_mul_beq zero last)]
    exact one_sub_mul_beq zero finite
  | false => exact .inl (isNaN_add_right _ (isNaN_zero_mul zero last))

end Grid

/-- Between the upper infinity and a number is all that is above the number. -/
theorem Interval.contains_infinity_iff {upper x : Float} :
    (Interval.mk infinity upper).contains x = true ↔ upper < x := by
  unfold Interval.contains
  split
  · rename_i above
    rw [Bool.and_eq_true, decide_eq_true_iff, decide_eq_true_iff]
    refine iff_of_false ?_ ?_
    · rintro ⟨reached, below⟩
      exact not_infinity_lt _ (lt_of_le_of_lt reached below)
    · intro beyond
      exact not_infinity_lt _ (lt_of_le_of_lt above beyond)
  · rw [Bool.and_eq_true, decide_eq_true_iff, decide_eq_true_iff]
    exact and_iff_left_of_imp fun above => le_infinity_of_defined (defined_of_lt above).2

theorem Interval.lt_of_contains {lower upper x : Float} (order : ¬ upper < lower)
    (held : (Interval.mk lower upper).contains x = true) : lower ≤ x ∧ x < upper := by
  unfold Interval.contains at held
  split at held
  · rwa [Bool.and_eq_true, decide_eq_true_iff, decide_eq_true_iff] at held
  · rw [Bool.and_eq_true, decide_eq_true_iff, decide_eq_true_iff] at held
    exact absurd (lt_of_lt_of_le held.1 held.2) order

/-! ### Transforms -/

namespace Transform
variable [Elementary] {t : Transform}

/-- What is known of the logarithm and the exponential. -/
structure Logarithmic : Prop where
  /-- From where the logarithm is a number, it keeps the order. -/
  monotone : ∀ x y : Float, x < y → isFinite (Elementary.log x) = true →
    Elementary.log x ≤ Elementary.log y
  exp_infinity : Elementary.exp infinity = infinity
  exp_neg_infinity : Elementary.exp (-infinity) = 0
  exp_nonneg : ∀ u : Float, ¬ Elementary.exp u < 0

/-- What is known of a power and the root that undoes it. -/
structure Radical (p : Float) : Prop where
  root_infinity : Elementary.pow infinity (1 / p) = infinity
  root_neg_infinity : Elementary.pow (-infinity) (1 / p) = infinity ∨
    Elementary.pow (-infinity) (1 / p) = -infinity
  /-- From where the power is a number, it keeps the order, if the root is odd. -/
  monotone : Elementary.pow (-infinity) (1 / p) = -infinity → ∀ x y : Float, x < y →
    isFinite (Elementary.pow x p) = true → Elementary.pow x p ≤ Elementary.pow y p

/-- The elementary functions that a transform uses do what is known of them. -/
def Standard : Transform → Prop
  | id | sqrt => True
  | log => Logarithmic
  | pow p => 0 < p → Radical p

/-- The inverse sends both infinities to the upper one. -/
def Folds (t : Transform) : Prop := t.inverse (-infinity) = infinity

/-- A power has a positive exponent. -/
def Rises : Transform → Prop
  | pow p => 0 < p
  | _ => True

theorem not_folds_id : ¬ Transform.id.Folds := by
  intro folds
  change -infinity = infinity at folds
  have apart : -infinity < infinity := by decide
  rw [folds] at apart
  exact lt_irrefl _ apart

theorem folds_sqrt : Transform.sqrt.Folds := rfl

theorem Logarithmic.not_folds (logarithmic : Logarithmic) : ¬ Transform.log.Folds := by
  intro folds
  change Elementary.exp (-infinity) = infinity at folds
  rw [logarithmic.exp_neg_infinity] at folds
  have apart : (0 : Float) < infinity := by decide
  rw [folds] at apart
  exact lt_irrefl _ apart

theorem Standard.inverse_infinity (standard : t.Standard) (rises : t.Rises) :
    t.inverse infinity = infinity := by
  cases t with
  | id | sqrt => rfl
  | log => exact standard.exp_infinity
  | pow p => exact (standard rises).root_infinity

theorem Standard.inverse_infinite (standard : t.Standard) (rises : t.Rises) (folds : t.Folds)
    (s : Sign) : t.inverse (infinite s) = infinity := by
  cases s with
  | positive => exact standard.inverse_infinity rises
  | negative => exact folds

section
variable (standard : t.Standard) (rises : t.Rises) (keeps : ¬ t.Folds)
include standard rises keeps

/-- What the inverse gives for the lower infinity is not above what it gives elsewhere. -/
theorem Standard.not_inverse_lt (u : Float) : ¬ t.inverse u < t.inverse (-infinity) := by
  cases t with
  | id => exact not_lt_neg_infinity u
  | sqrt => exact absurd folds_sqrt keeps
  | log =>
    change ¬ Elementary.exp u < Elementary.exp (-infinity)
    rw [standard.exp_neg_infinity]
    exact standard.exp_nonneg u
  | pow p =>
    have odd := (standard rises).root_neg_infinity.resolve_left keeps
    change ¬ Elementary.pow u (1 / p) < Elementary.pow (-infinity) (1 / p)
    rw [odd]
    exact not_lt_neg_infinity _

theorem Standard.forward_le {x y : Float} (order : x < y)
    (finite : isFinite (t.forward x) = true) : t.forward x ≤ t.forward y := by
  cases t with
  | id => exact le_of_lt order
  | sqrt => exact absurd folds_sqrt keeps
  | log => exact standard.monotone x y order finite
  | pow p =>
    have odd := (standard rises).root_neg_infinity.resolve_left keeps
    exact (standard rises).monotone odd x y order finite

end
end Transform

/-! ### Even bins -/

namespace Regular
variable [Elementary] {r : Regular} {x : Float}

/-- The ends are in order: the span is some number but zero, and it is positive unless the
inverse folds the line. -/
structure Ascends (r : Regular) : Prop where
  sized : 0 < r.size
  word : r.size < 2 ^ 64
  finite : isFinite r.grid.first = true
  defined : r.grid.span.isNaN = false
  nonzero : ¬ (r.grid.span == 0) = true
  rises : r.transform.Rises
  pos : ¬ r.transform.Folds → 0 < r.grid.span

theorem new_eq_ok {bins : ℕ} {start stop : Float} {t : Transform}
    (made : Regular.new bins start stop t = .ok r) :
    0 < bins ∧ isFinite (t.forward start) = true ∧ isFinite (t.forward stop) = true ∧
      ¬ (t.forward stop - t.forward start == 0) = true ∧
      r = ⟨⟨bins, t.forward start, t.forward stop - t.forward start⟩, t⟩ := by
  simp only [new, guard_eq_ok] at made
  obtain ⟨some_bins, made⟩ := made
  have sized : 0 < bins := Nat.pos_of_ne_zero some_bins
  cases t with
  | id | log | sqrt =>
    simp only [guard_eq_ok, pure_eq_ok, Bool.or_eq_true, Bool.not_eq_true', not_or,
      Bool.not_eq_false] at made
    obtain ⟨⟨finite, bounded⟩, nonzero, rfl⟩ := made
    exact ⟨sized, finite, bounded, nonzero, rfl⟩
  | pow p =>
    simp only [guard_eq_ok, pure_eq_ok, Bool.or_eq_true, Bool.not_eq_true', not_or,
      Bool.not_eq_false] at made
    obtain ⟨_, ⟨finite, bounded⟩, nonzero, rfl⟩ := made
    exact ⟨sized, finite, bounded, nonzero, rfl⟩

theorem ascends_of_new {bins : ℕ} {start stop : Float} {t : Transform} (word : bins < 2 ^ 64)
    (order : start < stop) (rises : t.Rises) (standard : t.Standard)
    (made : Regular.new bins start stop t = .ok r) : r.Ascends := by
  obtain ⟨sized, finite, bounded, nonzero, rfl⟩ := new_eq_ok made
  obtain ⟨p, first⟩ := Option.isSome_iff_exists.mp finite
  obtain ⟨q, last⟩ := Option.isSome_iff_exists.mp bounded
  have defined := (nearest_sub last first).defined
  refine ⟨sized, word, finite, defined, nonzero, rises, fun keeps => ?_⟩
  refine pos_of_not_neg defined ?_ nonzero
  rw [sub_lt_zero_iff last first]
  exact not_lt_of_le (standard.forward_le rises keeps order finite)

section
variable (ascends : r.Ascends) (standard : r.transform.Standard)
include ascends

theorem exists_sided_span : ∃ s, Sided s r.grid.span := by
  rcases sign_cases ascends.defined with neg | zero | pos
  · exact ⟨_, sided_of_neg neg⟩
  · exact absurd zero ascends.nonzero
  · exact ⟨_, sided_of_pos pos⟩

theorem value_front (keeps : ¬ r.transform.Folds) :
    r.value (ofInt (-1)) = r.transform.inverse (-infinity) := by
  have lowest : -infinity * r.grid.span = -infinity :=
    infinite_mul .negative (sided_of_pos (ascends.pos keeps))
  rw [value, innerValue_eq, Grid.valueAt_front ascends.sized ascends.word, lowest]

include standard

theorem value_front_of_folds (folds : r.transform.Folds) : r.value (ofInt (-1)) = infinity := by
  obtain ⟨s, sided⟩ := exists_sided_span ascends
  have product : -infinity * r.grid.span = infinite (.negative * s) := infinite_mul .negative sided
  rw [value, innerValue_eq, Grid.valueAt_front ascends.sized ascends.word, product]
  exact standard.inverse_infinite ascends.rises folds _

theorem value_behind (small : r.size + 1 < 2 ^ 53) :
    r.value (ofInt (r.size + 1 : ℕ)) = infinity := by
  rw [value, innerValue_eq, size, Grid.valueAt_behind ascends.sized small]
  by_cases folds : r.transform.Folds
  · obtain ⟨s, sided⟩ := exists_sided_span ascends
    have product : infinity * r.grid.span = infinite (.positive * s) := infinite_mul .positive sided
    rw [product]
    exact standard.inverse_infinite ascends.rises folds _
  · have product : infinity * r.grid.span = infinity :=
      infinite_mul .positive (sided_of_pos (ascends.pos folds))
    rw [product]
    exact standard.inverse_infinity ascends.rises

end

/-- The position of what is put in range is between zero and one. -/
theorem position_of_index (low : 0 ≤ r.index x) (high : r.index x < Word64.signed r.size) :
    0 ≤ r.grid.position (r.transform.forward x) ∧
      r.grid.position (r.transform.forward x) < 1 := by
  unfold index Grid.index at low high
  simp only at low high
  split at low
  · rename_i short
    rw [if_pos short] at high
    split at low
    · exact ⟨‹_›, short⟩
    · exact absurd low (by decide)
  · rename_i long
    rw [if_neg long] at high
    exact absurd high (Int.lt_irrefl _)

/-- A number in front of the first edge that is put in range has been rounded there. -/
inductive Rounds (r : Regular) (x : Float) : Prop
  /-- Its position is zero, though it is not beyond the first edge in the space of the
  transform: it is at that edge, which the inverse rounds up, or rounded to it. -/
  | position : ¬ r.grid.first < r.transform.forward x →
      (r.grid.position (r.transform.forward x) == 0) = true → Rounds r x
  /-- The first edge is rounded up on its way through the transform and back, and the number
  is between the two. -/
  | edge : r.transform ≠ .id → r.grid.first < r.transform.forward x →
      r.transform.forward x ≤ r.transform.forward (r.value (ofInt 0)) → Rounds r x

theorem not_first_lt_of_id (ascends : r.Ascends) (plain : r.transform = .id) :
    ¬ r.grid.first < r.value (ofInt 0) := by
  have none : (ofInt 0 == 0) = true := by decide
  have zero := position_first ascends.sized ascends.word none
  have value : r.value (ofInt 0) = r.grid.between (ofInt 0 / ofNat r.size) := by
    rw [value, innerValue_eq, Grid.valueAt_first ascends.sized ascends.word none, plain]
    rfl
  intro above
  rw [value] at above
  obtain ⟨_, defined⟩ := defined_of_lt above
  rcases Grid.between_zero zero ascends.finite with nan | same
  · rw [nan] at defined
    contradiction
  · exact lt_irrefl _ (lt_of_lt_of_beq above same)

theorem rounds_of_lt (ascends : r.Ascends) (standard : r.transform.Standard)
    (keeps : ¬ r.transform.Folds) (front : x < r.value (ofInt 0)) (low : 0 ≤ r.index x)
    (high : r.index x < Word64.signed r.size) : r.Rounds x := by
  obtain ⟨reached, short⟩ := position_of_index low high
  obtain ⟨p, found⟩ := Option.isSome_iff_exists.mp ascends.finite
  have defined := (defined_of_le reached).2
  by_cases ahead : r.grid.first < r.transform.forward x
  · have position := isFinite_of_nonneg_of_lt reached short
    have finite : isFinite (r.transform.forward x) = true :=
      isFinite_of_sub (isFinite_of_div position) ascends.finite
    refine .edge (fun plain => ?_) ahead (standard.forward_le ascends.rises keeps front finite)
    rw [plain] at ahead
    exact not_first_lt_of_id ascends plain (lt_of_lt_of_le ahead (le_of_lt front))
  · have nonpos := not_pos_div (not_pos_sub found ahead) (ascends.pos keeps)
    rcases sign_cases defined with neg | none | pos
    · exact absurd neg (not_lt_of_le reached)
    · exact .position ahead none
    · exact absurd pos nonpos

end Regular

namespace Grid
variable {g : Grid Float} {x y : Float} {i j : ℤ}

/-- A grid that repeats has its edges in order. -/
theorem not_repeatedAt_lt (sized : 0 < g.size) (word : g.size < 2 ^ 64)
    (finite : isFinite g.first = true) (pos : 0 < g.span) (left : Denotes x i)
    (right : Denotes y j) (order : i < j) (low : i.natAbs ≤ 2 ^ 64) (high : j.natAbs ≤ 2 ^ 64) :
    ¬ g.repeatedAt y < g.repeatedAt x := by
  obtain ⟨m, some_bins, _, size⟩ := exists_pos_denotes_ofNat sized word
  obtain ⟨f, first⟩ := Option.isSome_iff_exists.mp finite
  have divisor : (0 : ℤ) < m := by exact_mod_cast some_bins
  obtain ⟨p, found⟩ := left.finite_div size divisor low
  obtain ⟨q, again⟩ := right.finite_div size divisor high
  change ¬ g.first + y / ofNat g.size * g.span < g.first + x / ofNat g.size * g.span
  exact not_add_lt_add first
    (not_mul_lt_mul found again pos (left.div_le_div right size divisor order))

end Grid

/-! ### Explicit edges and integers -/

theorem lt_zero_of_front : ofInt (-1) < 0 := by decide

theorem succ_front : ofInt (-1) + 1 = ofInt 0 := rfl

theorem denotes_first : Denotes (ofInt 0) 0 := denotes_ofInt_natCast (k := 0) (by decide)

theorem beyond_last {n : ℕ} (small : n + 1 < 2 ^ 53) :
    ¬ ofInt (n + 1 : ℕ) < 0 ∧ ofNat n < ofInt (n + 1 : ℕ) := by
  have same : ofInt (n + 1 : ℕ) = ofNat (n + 1) := if_pos (Int.natCast_nonneg _)
  rw [same, (denotes_ofNat (by omega)).lt_iff (denotes_ofNat small)]
  exact ⟨ofNat_not_lt_zero _, by omega⟩

namespace Edges
variable {e : Edges} {x : Float}

theorem value_front (e : Edges) : e.value (ofInt (-1)) = -infinity := by
  rw [value]
  exact if_pos lt_zero_of_front

theorem value_behind (small : e.size + 1 < 2 ^ 53) :
    e.value (ofInt (e.size + 1 : ℕ)) = infinity := by
  obtain ⟨nonneg, above⟩ := beyond_last small
  have other : ¬ (ofInt (e.size + 1 : ℕ) == ofNat e.size) = true :=
    fun same => lt_irrefl _ (lt_of_lt_of_beq above same)
  rw [value]
  simp only [nonneg, other, above, if_false, if_true, Bool.false_eq_true]

/-- What is below the first edge is not in range. -/
theorem Ordered.index_of_lt (ordered : e.Ordered) (below : x < e.edge 0) : e.index x < 0 := by
  obtain ⟨defined, _⟩ := defined_of_lt below
  by_contra reached
  rw [not_lt] at reached
  rcases (ordered.le_index_iff (Nat.zero_le _)).mp reached with nan | above
  · rw [nan] at defined
    contradiction
  · exact not_lt_of_le above below

end Edges

namespace IntegerRange
variable {r : IntegerRange} {x : Float} {n : ℤ}

theorem value_front (r : IntegerRange) : r.value (ofInt (-1)) = -infinity := by
  rw [value]
  exact if_pos lt_zero_of_front

theorem value_behind (small : r.size + 1 < 2 ^ 53) :
    r.value (ofInt (r.size + 1 : ℕ)) = infinity := by
  obtain ⟨nonneg, above⟩ := beyond_last small
  rw [value, if_neg nonneg, if_pos above]

theorem value_first (zero : Denotes x 0) (origin : Word64.Signed r.start) :
    (r.value x == ofInt r.start) = true := by
  obtain ⟨_, _, _, start⟩ := exists_denotes_ofInt origin
  have nonneg : ¬ x < 0 := by
    rw [zero.lt_iff denotes_zero]
    exact Int.lt_irrefl 0
  have none : (x == 0) = true := (zero.beq_iff denotes_zero).mpr rfl
  have short : ¬ ofNat r.size < x :=
    fun above => ofNat_not_lt_zero r.size (lt_of_lt_of_beq above none)
  rw [value, if_neg nonneg, if_neg short, add_zero_beq none]
  exact beq_self_iff.mpr start.defined

/-- What is below the first integer is not in range. -/
theorem index_of_lt (origin : Word64.Signed r.start) (below : x < ofInt r.start) :
    r.index x = -1 := by
  obtain ⟨k, _, _, start⟩ := exists_denotes_ofInt origin
  obtain ⟨s, first, units⟩ := id start
  have defined := (defined_of_lt below).1
  have negative : floor x - ofInt r.start < 0 := by
    rcases cases_of_defined defined with ⟨p, found⟩ | rfl | rfl
    · rw [lt_iff found first, units] at below
      rw [(floors_of_parts? found).denotes_floor.sub_lt_zero_iff start,
        (floors_of_parts? found).denotes_floor.lt_iff start]
      exact Int.ediv_lt_of_lt_mul oneUnits_pos' below
    · exact absurd below (not_infinity_lt _)
    · have same : floor (-infinity) = -infinity := rfl
      rw [same, neg_infinity_sub first]
      decide
  rw [index, defined]
  exact if_pos negative

theorem indexInt_of_lt (origin : Word64.Signed r.start) (word : Word64.Signed n)
    (below : ofInt n < ofInt r.start) : r.indexInt n = -1 := by
  have before : n < r.start := by
    by_contra reached
    exact not_lt_of_le (ofInt_le origin word (not_lt.mp reached)) below
  unfold indexInt Word64.clampSigned Word64.minSigned
  omega

end IntegerRange
end Binning
