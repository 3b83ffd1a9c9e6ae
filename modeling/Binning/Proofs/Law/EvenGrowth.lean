import Binning.Law.InPlace
import Binning.Proofs.Law.EvenBins
import Binning.Proofs.Results
import Mathlib.Tactic.LinearCombination

/-! Growth and cuts of even bins in exact numbers. To grow is to put more bins of the same
width at one end, so every edge keeps its place and only its number moves; a cut keeps the
edges that its groups end at. The bin that growth gives is the one that lookup gives as
long as the size does not pass `2 ^ 63`. -/
namespace Binning
open Results

/-- A whole number of bins is added as it is, up to the limit. -/
theorem addedBins_intCast {bins : ℤ} (nonneg : 0 ≤ bins) {n : ℕ} :
    addedBins (bins : ℚ) = .ok n ↔ bins = n ∧ n ≤ growthLimit := by
  rw [addedBins, throw_ite_eq_ok, pure_eq_ok]
  have limit : ¬ (Scalar.ofNat growthLimit : ℚ) < bins ↔ bins ≤ growthLimit := by
    rw [not_lt]
    change (bins : ℚ) ≤ (growthLimit : ℕ) ↔ _
    exact_mod_cast Iff.rfl
  rw [limit]
  have few : bins ≤ growthLimit → (Scalar.toSigned (bins : ℚ)).toNat = bins.toNat := by
    intro few
    have word : bins < 2 ^ 63 := few.trans_lt (by decide)
    rw [toSigned_of_nonneg (by exact_mod_cast nonneg) (by exact_mod_cast word), Int.floor_intCast]
  constructor
  · rintro ⟨within, counted⟩
    rw [few within] at counted
    omega
  · rintro ⟨rfl, within⟩
    have within : (n : ℤ) ≤ growthLimit := by omega
    exact ⟨within, (few within).trans (Int.toNat_natCast n)⟩

namespace Grid

/-! ### In place -/

namespace InPlace
variable {α : Type} [Scalar α]

omit [Scalar α] in
theorem run_get_bind {β : Type} (f : Grid α → InPlace α β) (g : Grid α) :
    (get >>= f).run g = (f g).run g := rfl

/-- The grid is written only after the last check. -/
theorem run_grow (u : α) (g : Grid α) :
    (InPlace.grow u).run g =
      match g.reach u with
      | .ok r => .ok (r.index, r.front) r.grid
      | .error bins => .error bins g := by
  unfold InPlace.grow Grid.reach
  rw [run_get_bind]
  by_cases below : g.position u < 1
  · simp only [if_pos below]
    by_cases nonneg : 0 ≤ g.position u
    · simp only [if_pos nonneg]
      rfl
    simp only [if_neg nonneg]
    by_cases finite : Scalar.isFinite (g.position u) = true
    · simp only [if_pos finite, added]
      cases addedBins (-Scalar.floor (g.position u * Scalar.ofNat g.size)) <;> rfl
    · simp only [if_neg finite]
      rfl
  · simp only [if_neg below]
    by_cases finite : Scalar.isFinite (g.position u) = true
    · simp only [if_pos finite, added]
      cases addedBins
        (Scalar.floor (g.position u * Scalar.ofNat g.size) - Scalar.ofNat g.size + 1) <;> rfl
    · simp only [if_neg finite]
      rfl

variable {u bins : α} {g s : Grid α} {i : Int} {front : Nat}

theorem run_grow_eq_ok :
    (InPlace.grow u).run g = .ok (i, front) s ↔ g.reach u = .ok ⟨i, front, s⟩ := by
  rw [run_grow]
  cases g.reach u with
  | error => exact ⟨nofun, nofun⟩
  | ok r =>
    cases r
    simp only [EStateM.Result.ok.injEq, Except.ok.injEq, Prod.ext_iff, Reach.mk.injEq, and_assoc]

theorem eq_of_run_grow_error (refused : (InPlace.grow u).run g = .error bins s) : s = g := by
  rw [run_grow] at refused
  cases reached : g.reach u with
  | ok =>
    rw [reached] at refused
    cases refused
  | error =>
    rw [reached] at refused
    cases refused
    rfl

end InPlace

variable {g h s : Grid ℚ} {u before beyond : ℚ} {i : ℤ} {front behind k lo hi merge : ℕ}

/-! ### More bins of the same width -/

/-- The grid of so many bins of one width. -/
def evenly (size : ℕ) (first width : ℚ) : Grid ℚ := ⟨size, first, size * width⟩

theorem evenly_proper {size : ℕ} {first width : ℚ} (sized : 0 < size) (wide : width ≠ 0) :
    (evenly size first width).Proper :=
  ⟨sized, mul_ne_zero (Nat.cast_ne_zero.mpr sized.ne') wide⟩

theorem width_evenly {size : ℕ} (sized : 0 < size) (first width : ℚ) :
    (evenly size first width).width = width :=
  mul_div_cancel_left₀ _ (Nat.cast_ne_zero.mpr sized.ne')

/-- The grid with more bins of its width at its ends. -/
def widened (g : Grid ℚ) (front behind : ℕ) : Grid ℚ :=
  evenly (g.size + front + behind) (g.first - front * g.width) g.width

theorem size_widened (g : Grid ℚ) (front behind : ℕ) :
    (g.widened front behind).size = g.size + front + behind := rfl

theorem first_widened (g : Grid ℚ) (front behind : ℕ) :
    (g.widened front behind).first = g.first - front * g.width := rfl

namespace Proper
variable (proper : g.Proper)
include proper

theorem size_widened_pos (front behind : ℕ) : 0 < g.size + front + behind := by
  have sized := proper.sized
  omega

theorem widened (front behind : ℕ) : (g.widened front behind).Proper :=
  evenly_proper (proper.size_widened_pos front behind) proper.width_ne_zero

theorem width_widened (front behind : ℕ) : (g.widened front behind).width = g.width :=
  width_evenly (proper.size_widened_pos front behind) _ _

theorem edge_widened (front behind k : ℕ) :
    (g.widened front behind).edge (k + front) = g.edge k := by
  rw [exact_edge, exact_edge, proper.width_widened, first_widened]
  push_cast
  ring

theorem steps_widened (front behind : ℕ) (u : ℚ) :
    (g.widened front behind).steps u = g.steps u + front := by
  have later := (proper.widened front behind).eq_steps u
  rw [proper.width_widened, first_widened] at later
  refine mul_right_cancel₀ proper.width_ne_zero ?_
  linear_combination proper.eq_steps u - later

theorem widened_zero : g.widened 0 0 = g := by
  rw [Grid.widened, evenly, add_zero, add_zero, ← proper.span_eq, Nat.cast_zero, zero_mul, sub_zero]

theorem position_eq (u : ℚ) : g.position u = g.steps u / g.size := by
  rw [steps, mul_div_cancel_right₀ _ proper.size_pos.ne']

theorem nonneg_position_iff (u : ℚ) : 0 ≤ g.position u ↔ 0 ≤ ⌊g.steps u⌋ := by
  rw [Int.floor_nonneg, steps, mul_nonneg_iff_of_pos_right proper.size_pos]

theorem position_lt_one_iff (u : ℚ) : g.position u < 1 ↔ ⌊g.steps u⌋ < g.size := by
  rw [Int.floor_lt, Int.cast_natCast, proper.position_eq, div_lt_one proper.size_pos]

end Proper

/-! ### Steps -/

namespace Proper
variable (proper : g.Proper)
include proper

theorem reach_of_front (below : ⌊g.steps u⌋ < 0) : g.reach u =
    (fun n => ⟨0, n, g.widened n 0⟩) <$> addedBins ((-⌊g.steps u⌋ : ℤ) : ℚ) := by
  have nonneg : ¬ 0 ≤ g.position u := by
    rw [proper.nonneg_position_iff]
    omega
  have short : g.position u < 1 := (not_le.mp nonneg).trans one_pos
  have grid (n : ℕ) : g.widened n 0 = ⟨g.size + n, g.first - n * g.width,
      g.first + g.span - (g.first - n * g.width)⟩ := by
    rw [Grid.widened, evenly, add_zero, proper.span_eq, Grid.mk.injEq]
    refine ⟨rfl, rfl, ?_⟩
    push_cast
    ring
  have needed : ((-⌊g.steps u⌋ : ℤ) : ℚ) = -Scalar.floor (g.position u * (g.size : ℚ)) :=
    Int.cast_neg _
  have finite : Scalar.isFinite (g.position u) = true := rfl
  unfold reach
  simp only [if_pos short, if_neg nonneg, if_pos finite, needed, grid]
  rfl

theorem reach_of_inside (low : 0 ≤ ⌊g.steps u⌋) (high : ⌊g.steps u⌋ < g.size) :
    g.reach u = .ok ⟨g.binAt (g.position u), 0, g⟩ := by
  have nonneg : 0 ≤ g.position u := (proper.nonneg_position_iff u).mpr low
  have short : g.position u < 1 := (proper.position_lt_one_iff u).mpr high
  unfold reach
  simp only [if_pos short, if_pos nonneg]
  rfl

theorem reach_of_behind (beyond : g.size ≤ ⌊g.steps u⌋) : g.reach u =
    (fun n => ⟨Word64.signed (g.size + n - 1), 0, g.widened 0 n⟩) <$>
      addedBins ((⌊g.steps u⌋ - g.size + 1 : ℤ) : ℚ) := by
  have long : ¬ g.position u < 1 := by
    rw [proper.position_lt_one_iff]
    omega
  have grid (n : ℕ) : g.widened 0 n = ⟨g.size + n, g.first, g.width * (g.size + n : ℕ)⟩ := by
    rw [Grid.widened, evenly, add_zero, Nat.cast_zero, zero_mul, sub_zero, mul_comm]
  have needed : ((⌊g.steps u⌋ - g.size + 1 : ℤ) : ℚ) =
      Scalar.floor (g.position u * (g.size : ℚ)) - g.size + 1 := by
    push_cast
    rfl
  have finite : Scalar.isFinite (g.position u) = true := rfl
  unfold reach
  simp only [if_neg long, if_pos finite, needed, grid]
  rfl

end Proper

/-- What growth to `u` does: it puts bins at the end that `u` lies beyond. -/
inductive Extends (g : Grid ℚ) (u : ℚ) : Reach ℚ → Prop
  | front {n : ℕ} : ⌊g.steps u⌋ < 0 → ⌊g.steps u⌋ + n = 0 → n ≤ growthLimit →
    Extends g u ⟨0, n, g.widened n 0⟩
  | within : 0 ≤ ⌊g.steps u⌋ → ⌊g.steps u⌋ < g.size →
    Extends g u ⟨g.binAt (g.position u), 0, g.widened 0 0⟩
  | behind {n : ℕ} : g.size ≤ ⌊g.steps u⌋ → ⌊g.steps u⌋ + 1 = (g.size + n : ℕ) →
    n ≤ growthLimit → Extends g u ⟨Word64.signed (g.size + n - 1), 0, g.widened 0 n⟩

theorem Proper.reach_eq_ok (proper : g.Proper) {r : Reach ℚ} :
    g.reach u = .ok r ↔ g.Extends u r := by
  constructor
  · intro reached
    rcases lt_or_ge ⌊g.steps u⌋ 0 with below | low
    · rw [proper.reach_of_front below, map_eq_ok] at reached
      obtain ⟨n, added, rfl⟩ := reached
      obtain ⟨count, few⟩ := (addedBins_intCast (by omega)).mp added
      exact .front below (by omega) few
    rcases lt_or_ge ⌊g.steps u⌋ g.size with high | beyond
    · rw [proper.reach_of_inside low high, Except.ok.injEq] at reached
      have within := Extends.within low high
      rwa [proper.widened_zero, reached] at within
    · rw [proper.reach_of_behind beyond, map_eq_ok] at reached
      obtain ⟨n, added, rfl⟩ := reached
      obtain ⟨count, few⟩ := (addedBins_intCast (by omega)).mp added
      exact .behind beyond (by omega) few
  · intro extended
    cases extended with
    | front below count few =>
      rw [proper.reach_of_front below, map_eq_ok]
      exact ⟨_, (addedBins_intCast (by omega)).mpr ⟨by omega, few⟩, rfl⟩
    | within low high => rw [proper.reach_of_inside low high, proper.widened_zero]
    | behind beyond count few =>
      rw [proper.reach_of_behind beyond, map_eq_ok]
      exact ⟨_, (addedBins_intCast (by omega)).mpr ⟨by omega, few⟩, rfl⟩

/-- Where the ends are read as words of the wrong sign, no bin is found between them. -/
theorem index_neg_of_wide (wide : 2 ^ 63 < g.size) (word : g.size < 2 ^ 64)
    (nonneg : 0 ≤ g.position u) (below : g.position u < 1) : g.index u < 0 := by
  rw [index_of_inside nonneg below]
  have last : Word64.signed (g.size - 1) < 0 := by
    rw [Word64.signed_eq_bmod, Int.bmod_def]
    omega
  exact (min_le_right _ _).trans_lt last

theorem Extends.grid_eq {r : Reach ℚ} (extended : g.Extends u r) :
    ∃ behind, r.grid = g.widened r.front behind := by
  cases extended with
  | front | within | behind => exact ⟨_, rfl⟩

namespace Proper
variable (proper : g.Proper) {r : Reach ℚ} (extended : g.Extends u r)
include proper extended

theorem of_extends : r.grid.Proper := by
  obtain ⟨behind, grid⟩ := extended.grid_eq
  rw [grid]
  exact proper.widened _ _

/-- The steps from the new first edge. -/
theorem floor_steps_extends : ⌊r.grid.steps u⌋ = ⌊g.steps u⌋ + r.front := by
  obtain ⟨behind, grid⟩ := extended.grid_eq
  rw [grid, proper.steps_widened, Int.floor_add_natCast]

theorem inside_extends : 0 ≤ ⌊r.grid.steps u⌋ ∧ ⌊r.grid.steps u⌋ < r.grid.size := by
  rw [proper.floor_steps_extends extended]
  cases extended with
  | front | within | behind =>
    simp only [size_widened]
    omega

theorem index_extends (word : r.grid.size ≤ 2 ^ 63) : r.index = ⌊r.grid.steps u⌋ := by
  rw [proper.floor_steps_extends extended]
  cases extended with
  | front below reached => exact reached.symm
  | within low high =>
    rw [proper.widened_zero] at word
    rw [proper.binAt_eq word ((proper.nonneg_position_iff u).mpr low)
      ((proper.position_lt_one_iff u).mpr high)]
    exact (add_zero _).symm
  | behind beyond reached =>
    simp only [size_widened] at word
    rw [Word64.signed_of_lt (by omega)]
    simp only [Nat.cast_zero]
    omega

/-- The new grid looks `u` up in the bin that growth gives, one of its own, if and only if
its size does not pass the middle of the words. -/
theorem index_extends_iff (word : r.grid.size < 2 ^ 64) :
    (0 ≤ r.index ∧ r.index < r.grid.size ∧ r.grid.index u = r.index) ↔ r.grid.size ≤ 2 ^ 63 := by
  have later := proper.of_extends extended
  have inside := proper.inside_extends extended
  have nonneg := (later.nonneg_position_iff u).mpr inside.1
  have below := (later.position_lt_one_iff u).mpr inside.2
  constructor
  · rintro ⟨landed, -, found⟩
    by_contra wide
    have missed := index_neg_of_wide (not_le.mp wide) word nonneg below
    omega
  · intro small
    rw [later.index_eq small nonneg below, proper.index_extends extended small]
    exact ⟨inside.1, inside.2, rfl⟩

end Proper

/-- The edges of `g` stand in `h` from number `front` on. -/
structure Continues (g : Grid ℚ) (front : ℕ) (h : Grid ℚ) : Prop where
  width : h.width = g.width
  edges : ∀ before beyond : ℚ, ∀ k ≤ g.size,
    h.valueAt before beyond (k + front : ℕ) = g.valueAt before beyond k

theorem Proper.continues_widened (proper : g.Proper) (front behind : ℕ) :
    g.Continues front (g.widened front behind) := by
  refine ⟨proper.width_widened front behind, fun before beyond k inside => ?_⟩
  have kept : k + front ≤ (g.widened front behind).size := by
    rw [size_widened]
    omega
  rw [(proper.widened front behind).valueAt_natCast kept, proper.valueAt_natCast inside,
    proper.edge_widened]

/-- Growth to `u` gives bin `i`, puts bins in front and leaves the grid `s`: no edge moves,
and `u` is in the bin. -/
structure Accommodates (g : Grid ℚ) (u : ℚ) (i : ℤ) (front : ℕ) (s : Grid ℚ) : Prop
    extends g.Continues front s where
  unchanged : 0 ≤ g.position u → g.position u < 1 → front = 0 ∧ s = g
  /-- At `2 ^ 63` bins the last one is numbered by a wrapped difference; a build with overflow
  checks stops there. -/
  landed : s.size < 2 ^ 64 → ((0 ≤ i ∧ i < s.size ∧ s.index u = i) ↔ s.size ≤ 2 ^ 63)

theorem Proper.accommodates (proper : g.Proper) (reached : g.reach u = .ok ⟨i, front, s⟩) :
    g.Accommodates u i front s := by
  have extended := proper.reach_eq_ok.mp reached
  refine ⟨?continues, ?unchanged, proper.index_extends_iff extended⟩
  case continues =>
    obtain ⟨behind, rfl⟩ : ∃ behind, s = g.widened front behind := extended.grid_eq
    exact proper.continues_widened front behind
  case unchanged =>
    intro nonneg below
    rw [proper.nonneg_position_iff] at nonneg
    rw [proper.position_lt_one_iff] at below
    cases extended with
    | front => omega
    | within => exact ⟨rfl, proper.widened_zero⟩
    | behind => omega

/-! ### Runs -/

/-- A cut goes from edge to edge, also where it keeps an end as it is. -/
theorem Proper.slice_eq (proper : g.Proper) (lo hi merge : ℕ) :
    g.slice lo hi merge = ⟨(hi - lo) / merge, g.edge lo, g.edge hi - g.edge lo⟩ := by
  have first : (if lo = 0 then g.first else g.edge lo) = g.edge lo := by
    split
    · subst lo
      exact g.edge_zero.symm
    · rfl
  have last : (if hi = g.size then g.first + g.span else g.edge hi) = g.edge hi := by
    split
    · subst hi
      exact proper.edge_size.symm
    · rfl
  unfold slice
  split
  · rename_i whole
    obtain ⟨rfl, rfl⟩ := whole
    rw [proper.edge_size, edge_zero, add_sub_cancel_left, Nat.sub_zero]
  · rw [first, last]

end Grid
end Binning
