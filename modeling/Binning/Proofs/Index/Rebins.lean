import Binning.Proofs.Index.OneAxis
import Binning.Proofs.Law.Lookup

/-! All bins of an axis in groups. The groups of groups are groups of the first bins, also
where the last of them are short, and a flow bin stays a flow bin throughout. -/
namespace Binning
open Results

variable {m n merge : Nat}

theorem ceilDiv_ceilDiv {size : Nat} (some_first : 0 < m) (some_second : 0 < n) :
    (size ⌈/⌉ m) ⌈/⌉ n = size ⌈/⌉ (m * n) := by
  refine eq_of_forall_ge_iff fun c => ?_
  rw [ceilDiv_le_iff_le_mul some_second, ceilDiv_le_iff_le_mul some_first,
    ceilDiv_le_iff_le_mul (Nat.mul_pos some_first some_second), Nat.mul_assoc]

/-! ### Laws -/

theorem Edges.getElem?_stops_all {size k : Nat} (positive : 0 < merge)
    (below : k ≤ size ⌈/⌉ merge) : (stops 0 size merge)[k]? = some (min (k * merge) size) := by
  rw [getElem?_stops positive (Nat.zero_le size) below, Nat.zero_add]

/-- Some group holds the last bin, so a group of groups that is short ends there. -/
theorem min_min_mul {size k : Nat} (some_first : 0 < m) :
    min (min (k * n) (size ⌈/⌉ m) * m) size = min (k * (m * n)) size := by
  have covers : size ≤ m * (size ⌈/⌉ m) := (ceilDiv_le_iff_le_mul some_first).mp (Nat.le_refl _)
  have product : k * n * m = k * (m * n) := by rw [Nat.mul_assoc, Nat.mul_comm n]
  rw [Nat.mul_comm] at covers
  rw [← Nat.mul_min_mul_right, product, Nat.min_assoc, Nat.min_eq_right covers]

/-- An edge between groups of groups is one between the groups of bins. -/
theorem Edges.slice_slice_all {e : Edges} {size : Nat} (sized : 0 < size) (some_first : 0 < m)
    (some_second : 0 < n) :
    (e.slice 0 size m).slice 0 (size ⌈/⌉ m) n = e.slice 0 size (m * n) := by
  have both := Nat.mul_pos some_first some_second
  have count : (size ⌈/⌉ m) ⌈/⌉ n = size ⌈/⌉ (m * n) := ceilDiv_ceilDiv some_first some_second
  refine congrArg Edges.mk (List.ext_getElem? fun k => ?_)
  rw [List.getElem?_map, List.getElem?_map]
  by_cases inside : k ≤ size ⌈/⌉ (m * n)
  · have below : min (k * n) (size ⌈/⌉ m) ≤ (size - 0) ⌈/⌉ m := Nat.min_le_right ..
    rw [getElem?_stops_all some_second (count ▸ inside), getElem?_stops_all both inside,
      Option.map_some, Option.map_some, edge_slice some_first sized below, Nat.zero_add,
      min_min_mul some_first]
  · have beyond {hi merge : Nat} (positive : 0 < merge) (past : hi ⌈/⌉ merge < k) :
        (stops 0 hi merge)[k]? = none := by
      rw [List.getElem?_eq_none_iff, length_stops positive]
      exact past
    rw [beyond some_second (count ▸ Nat.lt_of_not_le inside),
      beyond both (Nat.lt_of_not_le inside)]
    rfl

theorem Grid.slice_slice_all {α : Type} [Scalar α] (g : Grid α) (m n : Nat) :
    (g.slice 0 g.size m).slice 0 (g.size / m) n = g.slice 0 g.size (m * n) := by
  simp only [slice, and_self, if_true, Nat.div_div_eq_div_mul]

theorem Regular.slice_slice_all (r : Regular) (m n : Nat) :
    (r.slice 0 r.size m).slice 0 (r.size / m) n = r.slice 0 r.size (m * n) :=
  congrArg (Regular.mk · r.transform) (Grid.slice_slice_all r.grid m n)

theorem Regular.size_slice_all (r : Regular) (m : Nat) :
    (r.slice 0 r.size m).size = r.size / m := by
  simp only [size, slice, Grid.slice, and_self, if_true]

namespace Axis
variable {a b new : Axis}

/-! ### Axes -/

/-- Bins between explicit edges can be put in groups of any number, even ones in groups
that divide theirs, and integers and labels in none. -/
def Groupable (a : Axis) (merge : Nat) : Prop :=
  match a.law with
  | .regular r => merge ∣ r.size
  | .edges _ => True
  | .integer _ | .category _ => False

theorem Groupable.of_mul (groupable : a.Groupable (m * n)) : a.Groupable m := by
  obtain ⟨law, options, label⟩ := a
  cases law with
  | regular r => exact dvd_of_mul_right_dvd groupable
  | edges | integer | category => exact groupable

theorem slice_regular {r : Regular} (law : a.law = .regular r) (sized : 0 < a.size)
    (positive : 0 < merge) (divides : merge ∣ r.size) :
    a.slice 0 a.size merge = .ok { a with law := .regular (r.slice 0 r.size merge) } := by
  have size : a.size = r.size := by rw [Axis.size, law]
  have even : r.size % merge = 0 := Nat.mod_eq_zero_of_dvd divides
  simp only [slice, sliceLaw, law, size, Nat.sub_zero, even, ne_eq, not_true_eq_false, or_false,
    if_false, if_true, ite_self, Nat.lt_irrefl, false_or]
  rw [if_neg (by omega)]
  rfl

theorem slice_edges {e : Edges} {lo hi : Nat} (law : a.law = .edges e) (some_bin : lo < hi)
    (inside : hi ≤ a.size) (positive : 0 < merge) :
    a.slice lo hi merge = .ok { a with law := .edges (e.slice lo hi merge) } := by
  rw [slice, if_neg (by omega), sliceLaw, law]
  rfl

theorem exists_slice_all (groupable : a.Groupable merge) (sized : 0 < a.size)
    (positive : 0 < merge) : ∃ new, a.slice 0 a.size merge = .ok new := by
  cases law : a.law with
  | regular r =>
    unfold Groupable at groupable
    rw [law] at groupable
    exact ⟨_, slice_regular law sized positive groupable⟩
  | edges e => exact ⟨_, slice_edges law sized (Nat.le_refl _) positive⟩
  | integer | category =>
    unfold Groupable at groupable
    rw [law] at groupable
    contradiction

section
variable (groupable : a.Groupable (m * n)) (sized : 0 < a.size) (some_first : 0 < m)
  (first : a.slice 0 a.size m = .ok b)
include groupable sized some_first first

/-- What is left can be put in groups again. -/
theorem Groupable.slice : b.Groupable n := by
  unfold Groupable at groupable
  cases law : a.law with
  | regular r =>
    rw [law] at groupable
    rw [slice_regular law sized some_first (dvd_of_mul_right_dvd groupable)] at first
    cases first
    change n ∣ (r.slice 0 r.size m).size
    rw [Regular.size_slice_all]
    exact Nat.dvd_div_of_mul_dvd groupable
  | edges e =>
    rw [slice_edges law sized (Nat.le_refl _) some_first] at first
    cases first
    trivial
  | integer | category =>
    rw [law] at groupable
    contradiction

/-- Groups of groups are larger groups of the bins. -/
theorem slice_slice_all (some_second : 0 < n) (second : b.slice 0 b.size n = .ok new) :
    a.slice 0 a.size (m * n) = .ok new := by
  have both := Nat.mul_pos some_first some_second
  have rest := groupable.slice sized some_first first
  obtain ⟨_, _, _, size, _⟩ := size_of_slice first
  obtain ⟨some_rest, _⟩ := size_of_slice second
  unfold Groupable at groupable rest
  cases law : a.law with
  | regular r =>
    rw [law] at groupable
    rw [slice_regular law sized some_first (dvd_of_mul_right_dvd groupable)] at first
    cases first
    rw [slice_regular rfl some_rest some_second rest, Regular.size_slice_all,
      Regular.slice_slice_all] at second
    cases second
    exact slice_regular law sized both groupable
  | edges e =>
    rw [slice_edges law sized (Nat.le_refl _) some_first] at first
    cases first
    rw [slice_edges rfl some_rest (Nat.le_refl _) some_second, size, Nat.sub_zero,
      Edges.slice_slice_all sized some_first some_second] at second
    cases second
    exact slice_edges law sized (Nat.le_refl _) both
  | integer | category =>
    rw [law] at groupable
    contradiction

end

theorem Groupable.startsSigned (groupable : a.Groupable merge) : a.StartsSigned := by
  obtain ⟨law, options, label⟩ := a
  cases law with
  | regular | edges | category => trivial
  | integer => contradiction

/-! ### Indices -/

/-- A bin goes to the group that its number tells, and a flow bin to the flow bin. -/
theorem grouped_all_iff (positive : 0 < merge) {i k : Int} :
    a.Grouped 0 a.size merge true true i k ↔
      (0 ≤ i ∧ i < a.size ∧ k = i / merge) ∨ (i = -1 ∧ k = -1) ∨
        (i = a.size ∧ k = (a.size ⌈/⌉ merge : Nat)) := by
  have quotient : k = i / merge ↔ k * merge ≤ i ∧ i < (k + 1) * merge := by
    rw [← Int.le_ediv_iff_mul_le (by omega), ← Int.ediv_lt_iff_lt_mul (by omega)]
    omega
  unfold Grouped
  rw [quotient, Nat.sub_zero]
  constructor
  · rintro (⟨low, from_low, to_high⟩ | flow | flow)
    · have above : 0 ≤ k * merge := Int.mul_nonneg low (Int.natCast_nonneg merge)
      exact .inl ⟨by omega, by omega, by omega, by omega⟩
    · exact .inr (.inl ⟨flow.1, flow.2.2⟩)
    · exact .inr (.inr ⟨flow.1, flow.2.2⟩)
  · rintro (⟨low, high, from_low, to_high⟩ | flow | flow)
    · have below : 0 ≤ k := by
        have group := Int.ediv_nonneg low (Int.natCast_nonneg merge)
        rwa [← quotient.mpr ⟨from_low, to_high⟩] at group
      exact .inl ⟨below, by omega, by omega⟩
    · exact .inr (.inl ⟨flow.1, rfl, flow.2⟩)
    · exact .inr (.inr ⟨flow.1, rfl, flow.2⟩)

/-- A group of groups has the bins of all of them. -/
theorem grouped_grouped_iff (some_first : 0 < m) (some_second : 0 < n)
    (size : b.size = a.size ⌈/⌉ m) {i k : Int} :
    (∃ j, a.Grouped 0 a.size m true true i j ∧ b.Grouped 0 b.size n true true j k) ↔
      a.Grouped 0 a.size (m * n) true true i k := by
  have group (low : 0 ≤ i) (high : i < a.size) : 0 ≤ i / m ∧ i / m < b.size := by
    refine ⟨Int.ediv_nonneg low (Int.natCast_nonneg m), ?_⟩
    obtain ⟨i, rfl⟩ := Int.eq_ofNat_of_zero_le low
    rw [size]
    norm_cast at high ⊢
    rw [lt_ceilDiv_iff some_first]
    exact Nat.lt_of_le_of_lt (Nat.div_mul_le_self i m) high
  have quotient : i / m / n = i / (m * n : Nat) := by
    rw [Int.natCast_mul, Int.ediv_ediv_of_nonneg (Int.natCast_nonneg m)]
  have count : b.size ⌈/⌉ n = a.size ⌈/⌉ (m * n) := by
    rw [size, ceilDiv_ceilDiv some_first some_second]
  simp only [grouped_all_iff some_first, grouped_all_iff some_second,
    grouped_all_iff (Nat.mul_pos some_first some_second), count]
  constructor
  · rintro ⟨j, ⟨low, high, rfl⟩ | ⟨rfl, rfl⟩ | ⟨rfl, rfl⟩, second⟩
    · obtain ⟨from_low, to_high⟩ := group low high
      rcases second with ⟨_, _, rfl⟩ | ⟨same, _⟩ | ⟨same, _⟩
      · exact .inl ⟨low, high, quotient⟩
      · omega
      · omega
    · rcases second with ⟨low, _⟩ | ⟨_, rfl⟩ | ⟨same, _⟩
      · omega
      · exact .inr (.inl ⟨rfl, rfl⟩)
      · omega
    · rcases second with ⟨_, high, _⟩ | ⟨same, _⟩ | ⟨_, rfl⟩
      · omega
      · omega
      · exact .inr (.inr ⟨rfl, rfl⟩)
  · rintro (⟨low, high, rfl⟩ | ⟨rfl, rfl⟩ | ⟨rfl, rfl⟩)
    · obtain ⟨from_low, to_high⟩ := group low high
      exact ⟨i / m, .inl ⟨low, high, rfl⟩, .inl ⟨from_low, to_high, quotient.symm⟩⟩
    · exact ⟨-1, .inr (.inl ⟨rfl, rfl⟩), .inr (.inl ⟨rfl, rfl⟩)⟩
    · exact ⟨_, .inr (.inr ⟨rfl, rfl⟩), .inr (.inr ⟨congrArg _ size.symm, rfl⟩)⟩

end Axis

variable {a new : Axis} {d : Nat} {i k : Int}

/-! ### Entries -/

theorem Index.route_rebin {lo hi : Nat} (fits : a.Fits) {start stop : Option Loc}
    (ranges : Ranges a start stop lo hi) (cut : a.slice lo hi merge = .ok new) :
    route a (.slice ⟨start, stop, some (.rebin merge)⟩) =
      .ok (.regroup a new lo hi merge (lo == 0) (hi == a.size)) := by
  obtain ⟨some_bin, _, positive, _⟩ := Axis.size_of_slice cut
  cases merge with
  | zero => contradiction
  | succ merge =>
    simp only [route, bound_of_bounds fits ranges.start, bound_of_bounds fits ranges.stop, bind,
      Except.bind, if_neg (Nat.not_le.mpr some_bin), cut]
    rfl

/-- The entry is a range of all bins, in groups of this many. -/
inductive Index.Rebins (a : Axis) (merge : Nat) : Index → Prop where
  | all {start stop : Option Loc} : Bounds a start 0 0 → Bounds a stop a.size a.size →
    Rebins a merge (.slice ⟨start, stop, some (.rebin merge)⟩)

/-- Slots go to those of their groups. -/
def Route.rebin (a new : Axis) (merge : Nat) : Route := .regroup a new 0 a.size merge true true

theorem Index.Rebins.route {entry : Index} (rebins : Rebins a merge entry) (fits : a.Fits)
    (sliced : a.slice 0 a.size merge = .ok new) : entry.route a = .ok (.rebin a new merge) := by
  obtain ⟨some_bin, _⟩ := Axis.size_of_slice sliced
  obtain ⟨first, last⟩ := rebins
  rw [route_rebin fits ⟨first, last, some_bin⟩ sliced, Route.rebin, beq_self_eq_true,
    beq_self_eq_true]

theorem Route.index?_rebin (fits : a.Fits) (sliced : a.slice 0 a.size merge = .ok new)
    (small : merge ≤ a.size) (has : a.representable i = true) :
    (rebin a new merge).index? a i = some k ↔ a.Grouped 0 a.size merge true true i k := by
  have word := Nat.lt_of_le_of_lt a.size_le_extent fits
  exact index?_regroup fits sliced (by omega) has

end Binning
