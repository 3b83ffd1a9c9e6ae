import Binning.Proofs.Axis.IntegerGrowth
import Binning.Proofs.Binary64.Differences

/-! Lookup in a range of integers. An integer is looked up exactly, but a number goes
through the number nearest to the start, so its bin is right if and only if the
rounded distances compare as the exact ones do. That is so for all numbers only if the
start is itself one of them. -/
namespace Binning
open Results Binary64

namespace IntegerRange
variable {start stop f i : Int}

/-- Bin `i` is the one where the integer `f` belongs among those from `start` to
`stop`. -/
structure Finds (start stop f i : Int) : Prop where
  inside : ∀ k, 0 ≤ k → k < stop - start → (i = k ↔ f = start + k)
  below : i = -1 ↔ f < start
  above : i = stop - start ↔ stop ≤ f

/-- Rounded, the distance of a number from the start compares as that of its floor `f`
does, and within the range it is that distance. -/
@[mk_iff] structure Measures (start stop : Int) (x : Float) (f : Int) : Prop where
  below : floor x < ofInt start ↔ f < start
  above : ofNat (stop - start).toNat ≤ floor x - ofInt start ↔ stop ≤ f
  inside : start ≤ f → f < stop → Denotes (floor x - ofInt start) (f - start)

theorem finds_iff (ordered : start < stop) : Finds start stop f i ↔
    f < start ∧ i = -1 ∨ start ≤ f ∧ f < stop ∧ i = f - start ∨ stop ≤ f ∧ i = stop - start := by
  constructor
  · rintro ⟨inside, below, above⟩
    have middle := inside (f - start)
    omega
  · intro found
    constructor
    · intro k low high
      omega
    · omega
    · omega

theorem Finds.unique {j : Int} (ordered : start < stop) (left : Finds start stop f i)
    (right : Finds start stop f j) : i = j := by
  rw [finds_iff ordered] at left right
  omega

theorem new_eq_ok {r : IntegerRange} (made : new start stop = .ok r) :
    start < stop ∧ Word64.Signed (stop - start) ∧ r = ⟨start, (stop - start).toNat⟩ := by
  simp only [new, guard_eq_ok, pure_eq_ok, not_not] at made
  obtain ⟨ordered, width, rfl⟩ := made
  exact ⟨Int.not_le.mp ordered, width, rfl⟩

section
variable (ordered : start < stop) (width : Word64.Signed (stop - start))
include ordered width

theorem size_lt : (stop - start).toNat < 2 ^ 63 := by
  have most := width.2
  unfold Word64.maxSigned at most
  omega

theorem finds_indexInt : Finds start stop f (indexInt ⟨start, (stop - start).toNat⟩ f) := by
  rw [finds_iff ordered, indexInt, Word64.signed_of_lt (size_lt ordered width)]
  have most := width.2
  unfold Word64.clampSigned Word64.minSigned Word64.maxSigned at *
  simp only
  omega

end

/-! ### Numbers -/

section
variable {n : Nat} {x : Float} (word : n < 2 ^ 63)
include word

theorem index_of_defined (defined : x.isNaN = false) : index ⟨start, n⟩ x =
    if floor x - ofInt start < 0 then -1
    else if ofNat n ≤ floor x - ofInt start then (n : Int)
    else toSigned (floor x - ofInt start) := by
  rw [index, defined, Word64.signed_of_lt word]
  rfl

theorem index_of_isNaN (nan : x.isNaN = true) : index ⟨start, n⟩ x = n := by
  rw [index, if_pos nan, Word64.signed_of_lt word]

variable (origin : Word64.Signed start)
include origin

theorem index_infinity : index ⟨start, n⟩ infinity = n := by
  obtain ⟨_, _, _, p, found, _⟩ := exists_denotes_ofInt origin
  have same : floor infinity = infinity := rfl
  have nonneg : ¬ infinity < 0 := by decide
  obtain ⟨_, _, _, size⟩ := exists_denotes_ofNat (n := n) (by omega)
  rw [index_of_defined word rfl, same, infinity_sub found, if_neg nonneg,
    if_pos (le_infinity_of_defined size.defined)]

theorem index_neg_infinity : index ⟨start, n⟩ (-infinity) = -1 := by
  obtain ⟨_, _, _, p, found, _⟩ := exists_denotes_ofInt origin
  have same : floor (-infinity) = -infinity := rfl
  have negative : -infinity < (0 : Float) := by decide
  rw [index_of_defined word rfl, same, neg_infinity_sub found, if_pos negative]

end

/-- The rounded distance is an integer, and in range it is the bin. -/
theorem denotes_distance_iff {s : Int} {x : Float} (width : Word64.Signed (stop - start))
    (origin : Word64.Signed start) (number : Denotes (ofInt start) s) (rounded : s.natAbs ≤ 2 ^ 64)
    (floors : Floors x f) (from_start : start ≤ f) (to_stop : f < stop) :
    Denotes (floor x - ofInt start) (f - start) ↔
      toSigned (floor x - ofInt start) = f - start := by
  unfold Word64.Signed Word64.minSigned Word64.maxSigned at origin width
  obtain ⟨_, _, distance⟩ := floors.denotes_floor.sub number (by omega)
  refine distance.denotes_iff ?_ ?_
  · unfold Word64.minSigned
    omega
  · unfold Word64.maxSigned
    omega

section
variable {x : Float} (ordered : start < stop) (width : Word64.Signed (stop - start))
  (origin : Word64.Signed start) (floors : Floors x f)
include ordered width origin floors

/-- The bin of a number is right exactly if its rounded distance measures as the one
of its floor. -/
theorem finds_index_iff : Finds start stop f (index ⟨start, (stop - start).toNat⟩ x) ↔
    Measures start stop x f := by
  have word := size_lt ordered width
  have whole := floors.denotes_floor
  have defined : x.isNaN = false := by
    obtain ⟨p, found, _⟩ := floors
    exact not_isNaN_of_isFinite (Option.isSome_of_eq_some found)
  obtain ⟨s, _, rounded, number⟩ := exists_denotes_ofInt origin
  have sign := whole.sub_lt_zero_iff number
  rw [index_of_defined word defined, finds_iff ordered, measures_iff]
  split
  · rename_i below
    have less := sign.mp below
    have short : ¬ ofNat (stop - start).toNat ≤ floor x - ofInt start :=
      fun reaches => not_lt_zero_of_ofNat_le reaches below
    simp only [less, short, true_iff, false_iff]
    constructor
    · intro found
      exact ⟨by omega, by omega, fun from_start _ => absurd from_start (by omega)⟩
    · rintro ⟨before, _, _⟩
      exact .inl ⟨before, trivial⟩
  rename_i nonneg
  have not_less := mt sign.mpr nonneg
  split
  · rename_i reaches
    simp only [not_less, reaches, true_iff, false_iff]
    constructor
    · intro found
      exact ⟨by omega, by omega, fun _ to_stop => absurd to_stop (by omega)⟩
    · rintro ⟨_, behind, _⟩
      exact .inr (.inr ⟨behind, by omega⟩)
  · rename_i short
    have low := toSigned_nonneg nonneg
    have high := toSigned_lt (by omega) word nonneg short
    simp only [not_less, short, false_iff]
    have reads := denotes_distance_iff width origin number rounded floors
    constructor
    · rintro (_ | ⟨from_start, to_stop, bin⟩ | _)
      · omega
      · exact ⟨by omega, by omega, fun _ _ => (reads from_start to_stop).mpr bin⟩
      · omega
    · rintro ⟨from_start, to_stop, distance⟩
      have from_start : start ≤ f := by omega
      have to_stop : f < stop := by omega
      exact .inr (.inl ⟨from_start, to_stop,
        (reads from_start to_stop).mp (distance from_start to_stop)⟩)

end

/-! ### Starts that are numbers -/

section
variable (ordered : start < stop) (width : Word64.Signed (stop - start))
  (origin : Word64.Signed start)
include ordered width origin

/-- From a start that is a number, a number within `2 ^ 53` gets the bin of its floor, and
in a range of as many integers every number does. -/
theorem finds_index_of_denotes (number : Denotes (ofInt start) start) {x : Float}
    (floors : Floors x f) (near : f - start < 2 ^ 53 ∨ stop - start ≤ 2 ^ 53) :
    Finds start stop f (index ⟨start, (stop - start).toNat⟩ x) := by
  have whole := floors.denotes_floor
  have word := size_lt ordered width
  rw [finds_index_iff ordered width origin floors, measures_iff, whole.lt_iff number]
  refine ⟨Iff.rfl, ?_⟩
  rcases Int.lt_or_le (f - start) (2 ^ 53) with short | far
  · rcases Int.lt_or_le (-2 ^ 53) (f - start) with low | low
    · obtain ⟨d, exactly, distance⟩ := whole.sub number (by omega)
      obtain rfl := exactly (by omega)
      refine ⟨?_, fun _ _ => distance⟩
      rw [ofNat_le_iff (by omega) distance short]
      omega
    · have below : floor x - ofInt start < 0 := by
        rw [whole.sub_lt_zero_iff number, whole.lt_iff number]
        omega
      refine ⟨iff_of_false (fun reaches => not_lt_zero_of_ofNat_le reaches below) ?_, ?_⟩
      · omega
      · omega
  · have reaches : Reaches (floor x - ofInt start) (2 ^ 53) := by
      obtain ⟨p, found, units⟩ := whole
      obtain ⟨q, again, others⟩ := number
      refine reaches_sub found again (Nat.le_refl _) ?_
      rw [units, others, ← Int.sub_mul, Nat.cast_mul]
      exact Int.mul_le_mul_of_nonneg_right far oneUnits_pos'.le
    refine ⟨iff_of_true (ofNat_le_of_reaches (by omega) reaches) ?_, ?_⟩
    · omega
    · omega

/-- From another start, the number nearest to it gets the first bin, though it is
another integer. -/
theorem denotes_of_finds (exactly : ∀ x f, Floors x f →
    Finds start stop f (index ⟨start, (stop - start).toNat⟩ x)) :
    Denotes (ofInt start) start := by
  obtain ⟨s, _, _, number⟩ := exists_denotes_ofInt origin
  have found := exactly _ _ number.floors
  have word := size_lt ordered width
  obtain ⟨d, nothing, distance⟩ := number.sub number (by omega)
  obtain rfl : d = 0 := by omega
  rw [finds_index_iff ordered width origin number.floors, measures_iff, number.floor,
    number.lt_iff number, ofNat_le_iff (by omega) distance (by decide)] at found
  obtain ⟨sign, reach, inside⟩ := found
  have difference := (inside (by omega) (by omega)).unique distance
  obtain rfl : s = start := by omega
  exact number

end
end IntegerRange

namespace Axis
open IntegerRange
variable {a : Axis} {start stop : Int}

/-- The lookup of a range of integers: exact for integers, and for a number as exact as
its rounded distance from the start. -/
structure LooksUp (a : Axis) (start stop : Int) : Prop where
  ints : ∀ n, Word64.Signed n → ∃ i, a.index (.int n) = .ok i ∧ Finds start stop n i
  floats : ∀ x, ∃ i, a.index (.float x) = .ok i ∧
    ((x.isNaN = true ∨ x = infinity) ∧ i = stop - start ∨ x = -infinity ∧ i = -1 ∨
      ∃ f, Floors x f ∧ (Finds start stop f i ↔ Measures start stop x f))
  agree : ∀ x n, Denotes x n → Word64.Signed n →
    (a.index (.float x) = a.index (.int n) ↔ Measures start stop x n)
  exact_from : Denotes (ofInt start) start → ∀ x f i, Floors x f →
    f - start < 2 ^ 53 ∨ stop - start ≤ 2 ^ 53 → a.index (.float x) = .ok i →
      Finds start stop f i
  exact_only : (∀ x f i, Floors x f → a.index (.float x) = .ok i → Finds start stop f i) →
    Denotes (ofInt start) start

/-- Every range that can be made looks up integers exactly. A number gets the bin of its
floor exactly if the rounded distance measures so. All numbers do only if the start is
itself a number; then all that are within `2 ^ 53` of the start do, and all others too
if the range has no more integers than that. -/
theorem looksUp_of_new {r : IntegerRange} (law : a.law = .integer r)
    (origin : Word64.Signed start) (made : IntegerRange.new start stop = .ok r) :
    a.LooksUp start stop := by
  obtain ⟨_, options, label⟩ := a
  obtain rfl : _ = Law.integer r := law
  obtain ⟨ordered, width, rfl⟩ := new_eq_ok made
  have word := size_lt ordered width
  have size : ((stop - start).toNat : Int) = stop - start := by omega
  have integers : ∀ n, Finds start stop n (indexInt ⟨start, (stop - start).toNat⟩ n) :=
    fun _ => finds_indexInt ordered width
  refine ⟨fun n _ => ⟨_, rfl, integers n⟩, fun x => ⟨_, rfl, ?_⟩, ?_, ?_, ?_⟩
  · cases defined : x.isNaN with
    | true => exact .inl ⟨.inl rfl, (index_of_isNaN word defined).trans size⟩
    | false =>
      rcases cases_of_defined defined with ⟨p, found⟩ | rfl | rfl
      · have floors := floors_of_parts? found
        exact .inr (.inr ⟨_, floors, finds_index_iff ordered width origin floors⟩)
      · exact .inl ⟨.inr rfl, (index_infinity word origin).trans size⟩
      · exact .inr (.inl ⟨rfl, index_neg_infinity word origin⟩)
  · intro x n denotes _
    rw [← finds_index_iff ordered width origin denotes.floors]
    constructor
    · intro same
      exact Except.ok.inj same ▸ integers n
    · intro found
      exact congrArg Except.ok (found.unique ordered (integers n))
  · intro number x f i floors near found
    cases found
    exact finds_index_of_denotes ordered width origin number floors near
  · intro exactly
    exact denotes_of_finds ordered width origin fun x f floors => exactly x f _ floors rfl

theorem looksUp_of_new_across :
    IntegerRange.new (-2) 3 = .ok ⟨-2, 5⟩ ∧
      LooksUp ⟨.integer ⟨-2, 5⟩, {}, none⟩ (-2) 3 :=
  ⟨rfl, looksUp_of_new rfl (by decide) rfl⟩

/-- A start that is no number may give its first bin to an integer below it. -/
theorem not_finds_beyond_precision :
    ¬ ∀ (a : Axis) (r : IntegerRange) (start stop : Int) (x : Float) (n i : Int),
      a.law = .integer r → IntegerRange.new start stop = .ok r → Word64.Signed start →
      Word64.Signed stop → Denotes x n → a.index (.float x) = .ok i → Finds start stop n i := by
  intro exactly
  have found := exactly ⟨.integer ⟨2 ^ 53 + 1, 1⟩, {}, none⟩ _ (2 ^ 53 + 1) (2 ^ 53 + 2)
    (ofNat (2 ^ 53)) _ 0 rfl rfl (by decide) (by decide) (denotes_ofNat_of_le (Nat.le_refl _)) rfl
  exact absurd (found.below.mpr (by decide)) (by decide)

end Axis
end Binning
