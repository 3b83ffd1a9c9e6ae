import Binning.Proofs.Accumulator.Merge
import Mathlib.Algebra.BigOperators.Group.List.Basic
import Mathlib.Tactic.FieldSimp
import Mathlib.Tactic.Ring

/-! The moments of samples in exact numbers. Four power sums say all about a list of
samples, and they add up when lists are joined. An accumulator that is filled, or merged
from others, is at each step the one that belongs to the power sums of the samples it has
taken, so neither the order of the samples nor that of the merges matters. -/
namespace Binning

structure Sample where
  weight : ℚ
  value : ℚ

/-! ### Power sums -/

/-- The sums of the weights and their squares, of the weighted samples and of their
weighted squares. -/
@[ext]
structure PowerSums where
  weight : ℚ
  weightSquared : ℚ
  first : ℚ
  second : ℚ

namespace PowerSums

def add (s t : PowerSums) : PowerSums :=
  ⟨s.weight + t.weight, s.weightSquared + t.weightSquared, s.first + t.first, s.second + t.second⟩

def ofSample (x : Sample) : PowerSums :=
  ⟨x.weight, x.weight * x.weight, x.weight * x.value, x.weight * x.value ^ 2⟩

def ofSamples (samples : List Sample) : PowerSums where
  weight := (samples.map (·.weight)).sum
  weightSquared := (samples.map fun x => x.weight * x.weight).sum
  first := (samples.map fun x => x.weight * x.value).sum
  second := (samples.map fun x => x.weight * x.value ^ 2).sum

/-- The mean and the squared deviations that belong to the sums. -/
def mean (s : PowerSums) : Mean ℚ :=
  ⟨s.weight, s.first / s.weight, s.second - s.first ^ 2 / s.weight⟩

def weightedMean (s : PowerSums) : WeightedMean ℚ :=
  ⟨s.weight, s.weightSquared, s.first / s.weight, s.second - s.first ^ 2 / s.weight⟩

/-- The weight is not negative, and where it is zero nothing has been counted. -/
structure Counted (s : PowerSums) : Prop where
  nonneg : 0 ≤ s.weight
  weightSquared : s.weight = 0 → s.weightSquared = 0
  first : s.weight = 0 → s.first = 0
  second : s.weight = 0 → s.second = 0

variable {s t : PowerSums} {x : Sample}

theorem ofSamples_append (samples others : List Sample) :
    ofSamples (samples ++ others) = (ofSamples samples).add (ofSamples others) := by
  simp only [ofSamples, add, List.map_append, List.sum_append]

theorem ofSamples_concat (samples : List Sample) (x : Sample) :
    ofSamples (samples ++ [x]) = (ofSamples samples).add (ofSample x) := by
  rw [ofSamples_append]
  simp [ofSamples, ofSample]

theorem ofSamples_perm {samples others : List Sample} (same : samples.Perm others) :
    ofSamples samples = ofSamples others := by
  simp only [ofSamples, (same.map _).sum_eq]

/-- The squared deviations from a number, by weight. -/
theorem sum_squares (samples : List Sample) (v : ℚ) :
    (samples.map fun x => x.weight * (x.value - v) ^ 2).sum =
      (ofSamples samples).second - 2 * v * (ofSamples samples).first +
        v ^ 2 * (ofSamples samples).weight := by
  induction samples with
  | nil => simp [ofSamples]
  | cons x rest ih =>
    simp only [ofSamples, List.map_cons, List.sum_cons] at ih ⊢
    rw [ih]
    ring

/-! ### What has been counted -/

theorem counted_ofSample (nonneg : 0 ≤ x.weight) : (ofSample x).Counted where
  nonneg := nonneg
  weightSquared none := mul_eq_zero_of_left none _
  first none := mul_eq_zero_of_left none _
  second none := mul_eq_zero_of_left none _

namespace Counted
variable (left : s.Counted) (right : t.Counted)
include left

/-- Counted sums are those of their mean and of the deviation from it. -/
theorem exists_central : ∃ v d, s.first = s.weight * v ∧ s.second = s.weight * v ^ 2 + d ∧
    s.mean = ⟨s.weight, v, d⟩ := by
  refine ⟨s.first / s.weight, s.second - s.first ^ 2 / s.weight, ?_, ?_, rfl⟩
  · by_cases none : s.weight = 0
    · rw [left.first none, none, zero_mul]
    · field_simp
  · by_cases none : s.weight = 0
    · simp [left.first none, left.second none, none]
    · field_simp
      ring

include right

theorem weight_eq_zero (none : s.weight + t.weight = 0) : s.weight = 0 ∧ t.weight = 0 :=
  (add_eq_zero_iff_of_nonneg left.nonneg right.nonneg).mp none

theorem add : (s.add t).Counted := by
  have both (none : s.weight + t.weight = 0) := left.weight_eq_zero right none
  refine ⟨add_nonneg left.nonneg right.nonneg, fun none => ?_, fun none => ?_, fun none => ?_⟩
  · simp [PowerSums.add, left.weightSquared (both none).1, right.weightSquared (both none).2]
  · simp [PowerSums.add, left.first (both none).1, right.first (both none).2]
  · simp [PowerSums.add, left.second (both none).1, right.second (both none).2]

theorem add_eq_left (none : s.weight + t.weight = 0) : s.add t = s := by
  obtain ⟨_, nothing⟩ := left.weight_eq_zero right none
  ext <;> simp [PowerSums.add, nothing, right.weightSquared nothing, right.first nothing,
    right.second nothing]

/-- A merge adds the power sums. -/
theorem mean_merge : s.mean.merge t.mean = (s.add t).mean := by
  by_cases none : s.weight + t.weight = 0
  · rw [left.add_eq_left right none]
    exact if_pos (beq_iff_eq.mpr none)
  · obtain ⟨v, d, first, second, center⟩ := left.exists_central
    obtain ⟨w, e, others, squares, other⟩ := right.exists_central
    refine (if_neg (mt beq_iff_eq.mp none)).trans ?_
    rw [center, other]
    simp only [PowerSums.mean, PowerSums.add, first, second, others, squares, Scalar.square,
      Mean.mk.injEq, true_and]
    field_simp
    ring

end Counted

/-- A fill adds the power sums of the sample. -/
theorem Counted.mean_fill (counted : s.Counted) (nonneg : 0 ≤ x.weight) :
    s.mean.fill x.weight x.value = (s.add (ofSample x)).mean := by
  have sample := counted_ofSample nonneg
  by_cases none : s.weight + x.weight = 0
  · rw [counted.add_eq_left sample none]
    refine (if_pos (beq_iff_eq.mpr none)).trans ?_
    obtain ⟨nothing, _⟩ := counted.weight_eq_zero sample none
    exact congrArg (fun c => (⟨c, _, _⟩ : Mean ℚ)) (none.trans nothing.symm)
  · obtain ⟨v, d, first, second, center⟩ := counted.exists_central
    refine (if_neg (mt beq_iff_eq.mp none)).trans ?_
    rw [center]
    simp only [PowerSums.mean, PowerSums.add, first, second, ofSample, Mean.mk.injEq, true_and]
    constructor
    · field_simp
      ring
    · field_simp
      ring

end PowerSums

/-! ### Weighted means -/

namespace WeightedMean

theorem toMean_fill (m : WeightedMean ℚ) (weight x : ℚ) :
    (m.fill weight x).toMean = m.toMean.fill weight x := by
  by_cases none : (m.weight + weight == 0) = true
  · exact (congrArg toMean (if_pos none)).trans (if_pos none).symm
  · exact (congrArg toMean (if_neg none)).trans (if_neg none).symm

theorem weightSquared_fill (m : WeightedMean ℚ) (weight x : ℚ) :
    (m.fill weight x).weightSquared = m.weightSquared + weight * weight := by
  by_cases none : (m.weight + weight == 0) = true
  · exact congrArg weightSquared (if_pos none)
  · exact congrArg weightSquared (if_neg none)

theorem ext_toMean {m n : WeightedMean ℚ} (same : m.toMean = n.toMean)
    (squares : m.weightSquared = n.weightSquared) : m = n := by
  cases m
  cases n
  simp_all [toMean]

end WeightedMean

namespace PowerSums.Counted
variable {s t : PowerSums} {x : Sample}

theorem weightedMean_fill (counted : s.Counted) (nonneg : 0 ≤ x.weight) :
    s.weightedMean.fill x.weight x.value = (s.add (ofSample x)).weightedMean := by
  refine WeightedMean.ext_toMean ?_ (WeightedMean.weightSquared_fill ..)
  rw [WeightedMean.toMean_fill]
  exact counted.mean_fill nonneg

theorem weightedMean_merge (left : s.Counted) (right : t.Counted) :
    s.weightedMean.merge t.weightedMean = (s.add t).weightedMean := by
  refine WeightedMean.ext_toMean ?_ ?_
  · rw [WeightedMean.toMean_merge]
    exact left.mean_merge right
  · by_cases none : s.weight + t.weight = 0
    · rw [left.add_eq_left right none]
      exact congrArg WeightedMean.weightSquared (if_pos (beq_iff_eq.mpr none))
    · exact (congrArg WeightedMean.weightSquared (if_neg (mt beq_iff_eq.mp none))).trans rfl

end PowerSums.Counted

/-! ### Accumulations -/

/-- How an accumulator comes about: samples are filled in one by one, and accumulators
that have been filled apart are merged, in any order and bracketing. -/
inductive Accumulation where
  | empty
  | fill (before : Accumulation) (x : Sample)
  | merge (left right : Accumulation)

namespace Accumulation

/-- The samples in the order in which the accumulators took them. -/
def samples : Accumulation → List Sample
  | empty => []
  | fill before x => before.samples ++ [x]
  | merge left right => left.samples ++ right.samples

def mean : Accumulation → Mean ℚ
  | empty => .empty
  | fill before x => before.mean.fill x.weight x.value
  | merge left right => left.mean.merge right.mean

def weightedMean : Accumulation → WeightedMean ℚ
  | empty => .empty
  | fill before x => before.weightedMean.fill x.weight x.value
  | merge left right => left.weightedMean.merge right.weightedMean

/-- The samples are filled into one accumulator. -/
def ofSamples (samples : List Sample) : Accumulation := samples.foldl fill empty

theorem samples_ofSamples (samples : List Sample) : (ofSamples samples).samples = samples := by
  have run (before : Accumulation) :
      (samples.foldl fill before).samples = before.samples ++ samples := by
    induction samples generalizing before with
    | nil => exact (List.append_nil _).symm
    | cons x rest ih =>
      rw [List.foldl_cons, ih, Accumulation.samples, List.append_assoc]
      rfl
  exact run empty

theorem mean_ofSamples (samples : List Sample) :
    (ofSamples samples).mean = samples.foldl (fun m x => m.fill x.weight x.value) .empty :=
  (List.foldl_hom mean fun _ _ => rfl).symm

theorem weightedMean_ofSamples (samples : List Sample) :
    (ofSamples samples).weightedMean =
      samples.foldl (fun m x => m.fill x.weight x.value) .empty :=
  (List.foldl_hom weightedMean fun _ _ => rfl).symm

/-- Each step leaves the accumulators that belong to the power sums. -/
theorem exact (a : Accumulation) (nonneg : ∀ x ∈ a.samples, 0 ≤ x.weight) :
    (PowerSums.ofSamples a.samples).Counted ∧
      a.mean = (PowerSums.ofSamples a.samples).mean ∧
      a.weightedMean = (PowerSums.ofSamples a.samples).weightedMean := by
  induction a with
  | empty =>
    refine ⟨⟨le_rfl, fun _ => rfl, fun _ => rfl, fun _ => rfl⟩, ?_, ?_⟩
    · simp [mean, Mean.empty, samples, PowerSums.ofSamples, PowerSums.mean]
    · simp [weightedMean, WeightedMean.empty, samples, PowerSums.ofSamples,
        PowerSums.weightedMean]
  | fill before x ih =>
    simp only [samples, List.mem_append, List.mem_singleton] at nonneg
    obtain ⟨counted, mean, weighted⟩ := ih fun y mem => nonneg y (.inl mem)
    have sample := nonneg x (.inr rfl)
    rw [samples, PowerSums.ofSamples_concat, Accumulation.mean, weightedMean, mean, weighted,
      counted.mean_fill sample, counted.weightedMean_fill sample]
    exact ⟨counted.add (PowerSums.counted_ofSample sample), rfl, rfl⟩
  | merge left right first second =>
    simp only [samples, List.mem_append] at nonneg
    obtain ⟨counted, mean, weighted⟩ := first fun y mem => nonneg y (.inl mem)
    obtain ⟨others, other, weighted'⟩ := second fun y mem => nonneg y (.inr mem)
    rw [samples, PowerSums.ofSamples_append, Accumulation.mean, weightedMean, mean, weighted,
      other, weighted', counted.mean_merge others, counted.weightedMean_merge others]
    exact ⟨counted.add others, rfl, rfl⟩

end Accumulation

/-! ### True moments -/

/-- Each moment is the sum over the samples that defines it. -/
structure Mean.Moments (m : Mean ℚ) (samples : List Sample) : Prop where
  count : m.count = (samples.map (·.weight)).sum
  value : 0 < m.count → m.value = (samples.map fun x => x.weight * x.value).sum / m.count
  deviation : 0 < m.count →
    m.deviation = (samples.map fun x => x.weight * (x.value - m.value) ^ 2).sum
  variance : m.variance? = if 1 < m.count then
    some ((samples.map fun x => x.weight * (x.value - m.value) ^ 2).sum / (m.count - 1)) else none

structure WeightedMean.Moments (m : WeightedMean ℚ) (samples : List Sample) : Prop where
  weight : m.weight = (samples.map (·.weight)).sum
  weightSquared : m.weightSquared = (samples.map fun x => x.weight * x.weight).sum
  value : 0 < m.weight → m.value = (samples.map fun x => x.weight * x.value).sum / m.weight
  deviation : 0 < m.weight →
    m.deviation = (samples.map fun x => x.weight * (x.value - m.value) ^ 2).sum

namespace PowerSums
variable {samples : List Sample}

theorem moments_mean (counted : (ofSamples samples).Counted) :
    (ofSamples samples).mean.Moments samples := by
  obtain ⟨v, d, first, second, center⟩ := counted.exists_central
  have deviation : d = (samples.map fun x => x.weight * (x.value - v) ^ 2).sum := by
    rw [sum_squares, first, second]
    ring
  rw [center]
  refine ⟨rfl, fun positive => ?_, fun _ => deviation, ?_⟩
  · rw [eq_div_iff positive.ne']
    exact (mul_comm ..).trans first.symm
  · rw [← deviation]
    rfl

theorem moments_weightedMean (counted : (ofSamples samples).Counted) :
    (ofSamples samples).weightedMean.Moments samples where
  weight := rfl
  weightSquared := rfl
  value := (moments_mean counted).value
  deviation := (moments_mean counted).deviation

end PowerSums

/-- Samples whose weights are not negative may be filled in one by one, or split, filled
apart and merged, in any order: the accumulators hold the true moments, and they are those
that a single run of fills leaves. -/
theorem moments_of_samples {samples : List Sample} (nonneg : ∀ x ∈ samples, 0 ≤ x.weight)
    {a : Accumulation} (split : a.samples.Perm samples) :
    a.mean.Moments samples ∧ a.weightedMean.Moments samples ∧
      a.mean = samples.foldl (fun m x => m.fill x.weight x.value) .empty ∧
      a.weightedMean = samples.foldl (fun m x => m.fill x.weight x.value) .empty := by
  obtain ⟨_, mean, weighted⟩ := a.exact fun x mem => nonneg x (split.subset mem)
  rw [PowerSums.ofSamples_perm split] at mean weighted
  have run := (Accumulation.ofSamples samples).exact
  rw [Accumulation.samples_ofSamples, Accumulation.mean_ofSamples,
    Accumulation.weightedMean_ofSamples] at run
  obtain ⟨counted, mean', weighted'⟩ := run nonneg
  rw [mean', weighted', mean, weighted]
  exact ⟨PowerSums.moments_mean counted, PowerSums.moments_weightedMean counted, rfl, rfl⟩

/-- Three samples, the last of which is filled apart and comes first in the merge. -/
def threeSamples : List Sample := [⟨1, 4⟩, ⟨0, 7⟩, ⟨2, 1⟩]

def mergedApart : Accumulation :=
  .merge (.fill .empty ⟨2, 1⟩) (.fill (.fill .empty ⟨1, 4⟩) ⟨0, 7⟩)

theorem moments_mergedApart :
    (∀ x ∈ threeSamples, 0 ≤ x.weight) ∧ mergedApart.samples.Perm threeSamples ∧
      mergedApart.mean.Moments threeSamples ∧ mergedApart.weightedMean.Moments threeSamples := by
  have nonneg : ∀ x ∈ threeSamples, 0 ≤ x.weight := by simp [threeSamples]
  have split : mergedApart.samples.Perm threeSamples :=
    (List.perm_append_singleton (⟨2, 1⟩ : Sample) [⟨1, 4⟩, ⟨0, 7⟩]).symm
  obtain ⟨mean, weighted, _⟩ := moments_of_samples nonneg split
  exact ⟨nonneg, split, mean, weighted⟩

end Binning
