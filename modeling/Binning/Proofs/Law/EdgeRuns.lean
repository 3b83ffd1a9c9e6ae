import Binning.Proofs.Binary64.Range
import Binning.Proofs.Law.EdgeGrowth

/-! Edges over a run of growth and cuts. They stay in order, and only the first and the
last can be infinite; each growth that puts an infinity there is told by the number and the
edges before it. What has an infinite edge is not accepted as new edges are. Where the
given edges and the numbers have an eighth of the range, no growth leaves the range. -/
namespace Binning

namespace Edges
open Binary64
variable {e : Edges} {x y : Float} {lo hi merge : Nat} {list : List Float}

def AllFinite (e : Edges) : Prop := ∀ y ∈ e.list, isFinite y = true

/-! ### Order -/

theorem ascending_of_pairwise (ascends : list.Pairwise (· < ·)) : ascending list = true := by
  induction list with
  | nil => rfl
  | cons x rest ih =>
    obtain ⟨above, later⟩ := List.pairwise_cons.mp ascends
    cases rest with
    | nil => rfl
    | cons y rest =>
      have apart : ¬ y ≤ x := fun reached => not_lt_of_le reached (above y List.mem_cons_self)
      rw [ascending, ih later, decide_eq_false apart]
      rfl

namespace Rising
variable (rising : e.Rising)
include rising

theorem length_eq : e.list.length = e.size + 1 := by
  have sized := rising.sized
  unfold size at *
  omega

theorem edge_lt {j k : Nat} (before : j < k) (below : k ≤ e.size) : e.edge j < e.edge k := by
  have length := rising.length_eq
  rw [edge_eq_get (by omega), edge_eq_get (by omega)]
  exact List.pairwise_iff_get.mp rising.ascends _ _ before

theorem edge_mem {k : Nat} (inside : k ≤ e.size) : e.edge k ∈ e.list := by
  have length := rising.length_eq
  rw [edge_eq_get (by omega)]
  exact List.get_mem ..

theorem slice (positive : 0 < merge) (some_bin : lo < hi) (inside : hi ≤ e.size) :
    (e.slice lo hi merge).Rising := by
  refine ⟨?_, List.pairwise_map.mpr ((pairwise_stops positive some_bin).imp_of_mem ?_)⟩
  · rw [size_slice positive, lt_ceilDiv_iff positive]
    omega
  · intro j k _ stop before
    exact rising.edge_lt before (Nat.le_trans (le_of_mem_stops positive some_bin stop) inside)

/-- Only an edge at an end can be infinite. -/
theorem isFinite_inner {k : Nat} (behind : 0 < k) (before : k < e.size) :
    isFinite (e.edge k) = true :=
  isFinite_of_lt_of_lt (rising.edge_lt behind before.le) (rising.edge_lt before le_rfl)

/-- The edges are accepted as new ones exactly if they are finite. -/
theorem new_iff : new e.list = .ok e ↔ e.AllFinite := by
  refine ⟨fun made => (ordered_of_new made).finite, fun finite => ?_⟩
  have length := rising.length_eq
  have sized := rising.sized
  have long : ¬ e.list.length < 2 := by omega
  have bounded : e.list.any (!isFinite ·) = false := by simpa [AllFinite] using finite
  simp only [new, long, bounded, ascending_of_pairwise rising.ascends]
  rfl

theorem allFinite_slice (positive : 0 < merge) (some_bin : lo < hi) (inside : hi ≤ e.size)
    (finite : e.AllFinite) : (e.slice lo hi merge).AllFinite := by
  intro y among
  obtain ⟨j, stop, rfl⟩ := List.mem_map.mp among
  exact finite _ (rising.edge_mem (Nat.le_trans (le_of_mem_stops positive some_bin stop) inside))

end Rising

/-! ### Bins -/

/-- Every bin in range has finite bounds. -/
def BoundedBins (e : Edges) : Prop :=
  ∀ a : Axis, a.law = .edges e → ∀ k < e.size, ∃ b : Interval Float,
    a.bin (k : Nat) = .ok (.interval b) ∧ isFinite b.lower = true ∧ isFinite b.upper = true

theorem Rising.boundedBins_iff (rising : e.Rising) (small : e.Addressable) :
    e.BoundedBins ↔ e.AllFinite := by
  constructor
  · intro bounded y among
    obtain ⟨k, below, rfl⟩ := List.getElem_of_mem among
    have length := rising.length_eq
    have edge : e.edge k = e.list[k] := edge_eq_get below
    have bins := bounded ⟨.edges e, .none, none⟩ rfl
    rcases Nat.lt_or_ge k e.size with first | last
    · obtain ⟨b, found, lower, _⟩ := bins k first
      rw [Axis.bin_of_edges rfl small first] at found
      cases found
      rwa [← edge]
    · have sized := rising.sized
      have before : k - 1 < e.size := by omega
      have next : k - 1 + 1 = k := by omega
      obtain ⟨b, found, _, upper⟩ := bins (k - 1) before
      rw [Axis.bin_of_edges rfl small before, next] at found
      cases found
      rwa [← edge]
  · intro finite a law k inside
    refine ⟨_, Axis.bin_of_edges law small inside, ?_, ?_⟩
    · exact finite _ (rising.edge_mem inside.le)
    · exact finite _ (rising.edge_mem inside)

/-! ### Growth -/

/-- By how much the edges grow in front: half the width of the first bin. -/
def firstHalf (e : Edges) : Float := e.value 0.5 - e.value 0

/-- By how much they grow behind: half the width of the last bin. -/
def lastHalf (e : Edges) : Float := e.value (ofNat e.size) - e.value (ofNat e.size - 0.5)

/-- Growth to include the number leaves the range: half a bin more is beyond it, or the
number is the largest and has none above it. -/
def Escapes (e : Edges) (x : Float) : Prop :=
  isFinite x = true ∧ (e.index x < 0 ∧ e.edge 0 - e.firstHalf = -infinity ∨
    e.size ≤ e.index x ∧ (¬ x < largest ∨ e.edge e.size + e.lastHalf = infinity))

/-- Growth keeps the edges finite exactly if it does not leave the range. -/
theorem allFinite_grow_iff (e : Edges) (x : Float) :
    (e.grow x).2.2.AllFinite ↔ e.AllFinite ∧ ¬ e.Escapes x := by
  cases finite : isFinite x with
  | false => simp [grow_of_not_finite finite, Escapes, finite]
  | true =>
    have next := lt_nextUp finite
    have defined := (defined_of_lt next).2
    have low : nextUp x ≠ -infinity := by
      intro first
      rw [first] at next
      exact not_lt_neg_infinity x next
    simp only [grow, finite, Bool.not_true, Bool.false_eq_true, if_false, Escapes, true_and]
    split
    · rename_i before
      have inside : ¬ (e.size : Int) ≤ e.index x := by omega
      simp only [AllFinite, List.forall_mem_cons, before, inside, true_and, false_and, or_false]
      rw [isFinite_least_iff finite, and_comm]
      rfl
    rename_i behind
    split
    · rename_i inside
      have short : ¬ (e.size : Int) ≤ e.index x := by omega
      simp [behind, short]
    · rename_i beyond
      have far : (e.size : Int) ≤ e.index x := by omega
      simp only [AllFinite, List.forall_mem_append, List.forall_mem_singleton, behind, far,
        true_and, false_and, false_or, not_or, not_not]
      rw [isFinite_greatest_iff defined low, isFinite_nextUp_iff finite]
      rfl

/-! ### Half a bin -/

theorem value_half (sized : 0 < e.size) (word : e.size < 2 ^ 64) :
    e.value 0.5 = 0.5 * e.edge 0 + 0.5 * e.edge 1 := by
  have short : 0.5 < ofNat e.size := lt_of_lt_of_le (by decide) (one_le_ofNat sized word)
  have before : ¬ ofNat e.size < 0.5 := not_lt_of_le (le_of_lt short)
  have other : ¬ (0.5 == ofNat e.size) = true :=
    fun same => lt_irrefl _ (lt_of_lt_of_beq short (beq_symm same))
  have nonneg : ¬ (0.5 : Float) < 0 := by decide
  have first : toUnsigned 0.5 = 0 := rfl
  have rest : (0.5 : Float) - ofNat 0 = 0.5 := rfl
  have inside : ¬ ((0.5 : Float) == 0) = true := by decide
  have complement : (1 - 0.5 : Float) = 0.5 := rfl
  rw [value]
  simp only [nonneg, other, before, first, rest, inside, complement, if_false, zero_add,
    Bool.false_eq_true]

theorem value_last_half (sized : 0 < e.size) (small : e.size < 2 ^ 52) :
    e.value (ofNat e.size - 0.5) = 0.5 * e.edge (e.size - 1) + 0.5 * e.edge e.size := by
  obtain ⟨short, nonneg, position, rest⟩ := half_before sized small
  have before : ¬ ofNat e.size < ofNat e.size - 0.5 := not_lt_of_le (le_of_lt short)
  have other : ¬ (ofNat e.size - 0.5 == ofNat e.size) = true :=
    fun same => lt_irrefl _ (lt_of_lt_of_beq short (beq_symm same))
  have inside : ¬ ((0.5 : Float) == 0) = true := by decide
  have complement : (1 - 0.5 : Float) = 0.5 := rfl
  have next : e.size - 1 + 1 = e.size := by omega
  rw [value]
  simp only [nonneg, other, before, position, rest, inside, complement, next, if_false,
    Bool.false_eq_true]

theorem Rising.halves (rising : e.Rising) (small : e.size < 2 ^ 52) :
    e.firstHalf = 0.5 * e.edge 0 + 0.5 * e.edge 1 - e.edge 0 ∧
      e.lastHalf = e.edge e.size - (0.5 * e.edge (e.size - 1) + 0.5 * e.edge e.size) := by
  have sized := rising.sized
  have length := rising.length_eq
  have stored : e.Addressable := Word64.inMemory_iff.mpr (by omega)
  have first := stored.value_eq_edge (Nat.zero_le _) denotes_zero
  have last := stored.value_eq_edge le_rfl (denotes_ofNat (n := e.size) (by omega))
  rw [firstHalf, lastHalf, value_half sized (by omega), value_last_half sized small, first, last]
  exact ⟨rfl, rfl⟩

/-! ### The range

Behind the edges, a number of at most an eighth of the range is above all of them, so
half a bin below it is not longer than three eighths. In front it is the same with the
signs changed. -/

section Margins
variable {v w : ℚ} {l r m h o : Float}

/-- The middle of the first bin, `v` and `w` being its edges. -/
theorem middle_bounds (first : -eighth ≤ v ∧ v ≤ 4 * eighth) (next : -eighth ≤ w ∧ w ≤ 4 * eighth)
    (left : Nearest l (v / 2)) (right : Nearest r (w / 2))
    (sum : Nearest m (extent l + extent r)) :
    -(2 * eighth) ≤ extent m ∧ extent m ≤ 4 * eighth ∧ (v ≤ 0 → extent m ≤ 2 * eighth) := by
  have pos := eighth_pos
  have low_left := left.neg_eighths_le (k := 1) (by decide) (by push_cast; linarith)
  have low_right := right.neg_eighths_le (k := 1) (by decide) (by push_cast; linarith)
  have high_left := left.le_eighths (k := 2) (by decide) (by push_cast; linarith)
  have high_right := right.le_eighths (k := 2) (by decide) (by push_cast; linarith)
  push_cast at low_left low_right high_left high_right
  refine ⟨?_, ?_, fun nonpos => ?_⟩
  · exact_mod_cast sum.neg_eighths_le (k := 2) (by decide) (by push_cast; linarith)
  · exact_mod_cast sum.le_eighths (k := 4) (by decide) (by push_cast; linarith)
  · have none_left := left.le_eighths (k := 0) (by decide) (by push_cast; linarith)
    push_cast at none_left
    exact_mod_cast sum.le_eighths (k := 2) (by decide) (by push_cast; linarith)

/-- The edge that half a bin before the first would be. -/
theorem outer_bounds (first : -eighth ≤ v ∧ v ≤ 4 * eighth)
    (middle : -(2 * eighth) ≤ extent m ∧ extent m ≤ 4 * eighth ∧ (v ≤ 0 → extent m ≤ 2 * eighth))
    (half : Nearest h (extent m - v)) :
    isFinite h = true ∧ (Nearest o (v - extent h) → -(4 * eighth) ≤ extent o) := by
  have pos := eighth_pos
  obtain ⟨low, high, lower⟩ := middle
  refine ⟨half.isFinite_of_eighths (k := 6) (by decide) ?_ ?_, fun outer => ?_⟩
  · push_cast
    linarith
  · push_cast
    linarith
  have far : -(4 * eighth) ≤ v - extent h := by
    rcases le_or_gt v 0 with nonpos | above
    · have short := half.le_eighths (k := 3) (by decide) (by push_cast; linarith [lower nonpos])
      push_cast at short
      linarith
    · have short := half.le_eighths (k := 4) (by decide) (by push_cast; linarith)
      push_cast at short
      linarith
  exact_mod_cast outer.neg_eighths_le (k := 4) (by decide) (by push_cast; linarith)

variable {a b : Float}

theorem nearest_half (finite : isFinite x = true) : Nearest (0.5 * x) (extent x / 2) := by
  have product := nearest_product (x := 0.5) rfl finite
  have one : (oneUnits : ℚ) ≠ 0 := Nat.cast_ne_zero.mpr oneUnits_pos.ne'
  have half : extent 0.5 * extent x / oneUnits = extent x / 2 := by
    rw [extent_half]
    field_simp
  rwa [half] at product

theorem isFinite_of_bounds (low : -(4 * eighth) ≤ extent x) (high : extent x ≤ 4 * eighth) :
    isFinite x = true := by
  have pos := eighth_pos
  apply isFinite_of_extent <;> rw [limitUnits_eq] <;> linarith

theorem half_of_bounds (low : -(4 * eighth) ≤ extent x) (high : extent x ≤ 4 * eighth) :
    isFinite x = true ∧ Nearest (0.5 * x) (extent x / 2) ∧ isFinite (0.5 * x) = true := by
  have pos := eighth_pos
  have finite := isFinite_of_bounds low high
  have half := nearest_half finite
  exact ⟨finite, half, half.isFinite_of_eighths (k := 4) (by decide) (by push_cast; linarith)
    (by push_cast; linarith)⟩

theorem before_first (first : -eighth ≤ extent a ∧ extent a ≤ 4 * eighth)
    (next : -eighth ≤ extent b ∧ extent b ≤ 4 * eighth) :
    (a - (0.5 * a + 0.5 * b - a)).isNaN = false ∧
      -(4 * eighth) ≤ extent (a - (0.5 * a + 0.5 * b - a)) := by
  have pos := eighth_pos
  obtain ⟨finite, left, finite_left⟩ := half_of_bounds (by linarith) first.2
  obtain ⟨_, right, finite_right⟩ := half_of_bounds (by linarith) next.2
  have middle := middle_bounds first next left right (nearest_sum finite_left finite_right)
  have half := nearest_difference (isFinite_of_bounds (by linarith) middle.2.1) finite
  obtain ⟨finite_half, outer⟩ := outer_bounds first middle half
  have edge := nearest_difference finite finite_half
  exact ⟨edge.defined, outer edge⟩

/-- Behind the last edge everything is as in front of the first, with the signs changed. -/
theorem behind_last (before : -(4 * eighth) ≤ extent a ∧ extent a ≤ eighth)
    (last : -(4 * eighth) ≤ extent b ∧ extent b ≤ eighth) :
    (b + (b - (0.5 * a + 0.5 * b))).isNaN = false ∧
      extent (b + (b - (0.5 * a + 0.5 * b))) ≤ 4 * eighth := by
  have pos := eighth_pos
  obtain ⟨_, left, finite_left⟩ := half_of_bounds before.1 (by linarith)
  obtain ⟨finite, right, finite_right⟩ := half_of_bounds last.1 (by linarith)
  have sum := nearest_sum finite_left finite_right
  have mirrored : Nearest (-(0.5 * a + 0.5 * b))
      (extent (-(0.5 * b)) + extent (-(0.5 * a))) := by
    rw [(extent_neg left.defined).2, (extent_neg right.defined).2, ← neg_add_rev]
    exact sum.neg
  have first : -eighth ≤ -extent b ∧ -extent b ≤ 4 * eighth := ⟨by linarith, by linarith⟩
  have middle := middle_bounds first (w := -extent a) ⟨by linarith, by linarith⟩
    (by rw [neg_div]; exact right.neg) (by rw [neg_div]; exact left.neg) mirrored
  have stands := (extent_neg sum.defined).2
  have half := nearest_difference finite
    (isFinite_of_bounds (x := 0.5 * a + 0.5 * b) (by linarith) (by linarith))
  obtain ⟨finite_half, outer⟩ := outer_bounds first middle
    (by rw [stands, neg_sub_neg]; exact half)
  have edge := nearest_sum finite finite_half
  have far := outer (by rw [← neg_add']; exact edge.neg)
  rw [(extent_neg edge.defined).2] at far
  exact ⟨edge.defined, by linarith⟩

end Margins

/-- The number `2 ^ 1021`, an eighth of the range. -/
def modest : Float := Float.ofBits 0x7FC0000000000000

theorem extent_modest : extent modest = eighth := by
  obtain ⟨T, place⟩ : ∃ T, T = 2043 := ⟨_, rfl⟩
  have found : parts? modest = some ⟨false, 2 ^ 52, 969⟩ := rfl
  have exponent : ((969 : ℤ) + 1074).toNat = T := place.symm
  have bits : 2098 - T = 55 := by omega
  rw [extent_of_binade found exponent, eighth, cast_limitUnits (T := T) (by omega), bits]
  ring

def Moderate (x : Float) : Prop := -modest ≤ x ∧ x ≤ modest

instance : DecidablePred Moderate := fun _ => inferInstanceAs (Decidable (_ ∧ _))

theorem Moderate.extent (moderate : Moderate x) : -eighth ≤ extent x ∧ extent x ≤ eighth := by
  obtain ⟨low, high⟩ := moderate
  obtain ⟨_, defined⟩ := defined_of_le low
  obtain ⟨mirrored, stands⟩ := extent_neg (x := modest) rfl
  rw [le_iff_extent mirrored defined, stands, extent_modest] at low
  rw [le_iff_extent defined rfl, extent_modest] at high
  exact ⟨low, high⟩

/-- Within half the range. -/
def Inside (y : Float) : Prop := -(4 * eighth) ≤ extent y ∧ extent y ≤ 4 * eighth

theorem Inside.isFinite (inside : Inside y) : isFinite y = true :=
  isFinite_of_bounds inside.1 inside.2

theorem Moderate.inside (moderate : Moderate x) : Inside x := by
  have pos := eighth_pos
  obtain ⟨low, high⟩ := moderate.extent
  exact ⟨by linarith, by linarith⟩

theorem Moderate.inside_nextUp (moderate : Moderate x) : Inside (nextUp x) := by
  have pos := eighth_pos
  have finite := moderate.inside.isFinite
  obtain ⟨low, high⟩ := moderate.extent
  have next := lt_nextUp finite
  obtain ⟨defined, defined_next⟩ := defined_of_lt next
  obtain ⟨y, defined_y, stands⟩ := exists_extent_eighths (k := 4) (by decide)
  push_cast at stands
  have far : x < y := by
    rw [lt_iff_extent defined defined_y, stands]
    linarith
  have short := nextUp_le finite far
  rw [le_iff_extent defined_next defined_y, stands] at short
  rw [lt_iff_extent defined defined_next] at next
  exact ⟨by linarith, short⟩

/-- Edges in order within half the range. -/
structure Contained (e : Edges) : Prop where
  rising : e.Rising
  inside : ∀ y ∈ e.list, Inside y

namespace Contained
variable (contained : e.Contained)
include contained

theorem allFinite : e.AllFinite := fun y among => (contained.inside y among).isFinite

theorem inside_edge {k : ℕ} (below : k ≤ e.size) : Inside (e.edge k) :=
  contained.inside _ (contained.rising.edge_mem below)

variable (small : e.size < 2 ^ 52) (moderate : Moderate x)
include small moderate

theorem inside_front (before : e.index x < 0) : Inside (least x (e.edge 0 - e.firstHalf)) := by
  have rising := contained.rising
  have defined := not_isNaN_of_isFinite moderate.inside.isFinite
  obtain ⟨low, high⟩ := moderate.extent
  have above {k : ℕ} (inside : k ≤ e.size) :
      -eighth ≤ extent (e.edge k) ∧ extent (e.edge k) ≤ 4 * eighth := by
    have order := rising.lt_of_index_neg defined before _ (rising.edge_mem inside)
    rw [lt_iff_extent defined (defined_of_lt order).2] at order
    exact ⟨by linarith, (contained.inside_edge inside).2⟩
  obtain ⟨defined_outer, far⟩ := before_first (above (Nat.zero_le _)) (above rising.sized)
  rw [← (rising.halves small).1] at defined_outer far
  rcases least_cases defined (e.edge 0 - e.firstHalf) with same | ⟨farther, same⟩
  · rw [same]
    exact moderate.inside
  · rw [lt_iff_extent defined_outer defined] at farther
    rw [same]
    exact ⟨far, farther.le.trans moderate.inside.2⟩

theorem inside_behind (beyond : e.size ≤ e.index x) :
    Inside (greatest (nextUp x) (e.edge e.size + e.lastHalf)) := by
  have rising := contained.rising
  have finite := moderate.inside.isFinite
  have defined := not_isNaN_of_isFinite finite
  obtain ⟨low, high⟩ := moderate.extent
  have below {k : ℕ} (inside : k ≤ e.size) :
      -(4 * eighth) ≤ extent (e.edge k) ∧ extent (e.edge k) ≤ eighth := by
    have order := rising.le_of_size_le_index defined beyond _ (rising.edge_mem inside)
    rw [le_iff_extent (defined_of_le order).1 defined] at order
    exact ⟨(contained.inside_edge inside).1, by linarith⟩
  obtain ⟨defined_outer, far⟩ := behind_last (below (Nat.sub_le e.size 1)) (below le_rfl)
  rw [← (rising.halves small).2] at defined_outer far
  have next := moderate.inside_nextUp
  have defined_next := (defined_of_lt (lt_nextUp finite)).2
  rcases greatest_cases defined_next (e.edge e.size + e.lastHalf) with same | ⟨farther, same⟩
  · rw [same]
    exact next
  · rw [lt_iff_extent defined_next defined_outer] at farther
    rw [same]
    exact ⟨next.1.trans farther.le, far⟩

end Contained

theorem Contained.grow (contained : e.Contained) (small : e.size < 2 ^ 52)
    (moderate : isFinite x = true → Moderate x) : (e.grow x).2.2.Contained := by
  refine ⟨contained.rising.grow x, ?_⟩
  cases finite : isFinite x with
  | false =>
    rw [grow_of_not_finite finite]
    exact contained.inside
  | true =>
    have moderate := moderate finite
    simp only [Edges.grow, finite, Bool.not_true, Bool.false_eq_true, if_false]
    split
    · rename_i before
      exact List.forall_mem_cons.mpr
        ⟨contained.inside_front small moderate before, contained.inside⟩
    split
    · exact contained.inside
    · have beyond : (e.size : Int) ≤ e.index x := by omega
      exact List.forall_mem_append.mpr ⟨contained.inside,
        List.forall_mem_singleton.mpr (contained.inside_behind small moderate beyond)⟩

/-! ### Runs -/

/-- Edges that growth and cuts reach from a list, each growth being one of those allowed. A
cut is of a range with some bin, in groups of some size. -/
inductive Reached (list : List Float) (allowed : Edges → Float → Prop) : Edges → Prop
  | made {e : Edges} : new list = .ok e → Reached list allowed e
  | grown {e : Edges} {x : Float} :
      Reached list allowed e → allowed e x → Reached list allowed (e.grow x).2.2
  | cut {e : Edges} {lo hi merge : Nat} : Reached list allowed e →
      lo < hi → hi ≤ e.size → 0 < merge → Reached list allowed (e.slice lo hi merge)

section
variable {allowed : Edges → Float → Prop}

theorem Reached.rising (reached : Reached list allowed e) : e.Rising := by
  induction reached with
  | made accepted => exact (ordered_of_new accepted).rising
  | grown _ _ ih => exact ih.grow _
  | cut _ some_bin inside positive ih => exact ih.slice positive some_bin inside

/-- Growth that is at no time beyond the range keeps the edges finite. -/
theorem Reached.allFinite (reached : Reached list allowed e)
    (stays : ∀ e x, allowed e x → ¬ e.Escapes x) : e.AllFinite := by
  induction reached with
  | made accepted => exact (ordered_of_new accepted).finite
  | grown _ permitted ih => exact (allFinite_grow_iff _ _).mpr ⟨ih, stays _ _ permitted⟩
  | cut before some_bin inside positive ih =>
    exact before.rising.allFinite_slice positive some_bin inside ih

end

/-- Finite numbers of at most an eighth of the range, in fewer than `2 ^ 52` bins. -/
def Modest (e : Edges) (x : Float) : Prop := e.size < 2 ^ 52 ∧ (isFinite x = true → Moderate x)

theorem Reached.contained (reached : Reached list Modest e) (moderate : ∀ y ∈ list, Moderate y) :
    e.Contained := by
  induction reached with
  | made accepted =>
    refine ⟨(ordered_of_new accepted).rising, fun y among => (moderate y ?_).inside⟩
    rwa [← (list_of_new accepted).1]
  | grown _ permitted ih => exact ih.grow permitted.1 permitted.2
  | cut before some_bin inside positive ih =>
    refine ⟨ih.rising.slice positive some_bin inside, fun y among => ?_⟩
    obtain ⟨j, stop, rfl⟩ := List.mem_map.mp among
    exact ih.inside_edge (Nat.le_trans (le_of_mem_stops positive some_bin stop) inside)

/-- Edges that are as new ones are. -/
structure Sound (e : Edges) : Prop where
  two : 2 ≤ e.list.length
  finite : e.AllFinite
  accepted : new e.list = .ok e
  bins : e.Addressable → e.BoundedBins

theorem Rising.sound (rising : e.Rising) (finite : e.AllFinite) : e.Sound := by
  have length := rising.length_eq
  have sized := rising.sized
  exact ⟨by omega, finite, rising.new_iff.mpr finite,
    fun small => (rising.boundedBins_iff small).mpr finite⟩

/-- What growth and cuts leave of the edges that a list has given. -/
structure StaysFinite (list : List Float) : Prop where
  /-- Whatever they have grown to include, the edges are in order, and only the first and
  the last can be infinite. -/
  ordered : ∀ e, Reached list (fun _ _ => True) e → 2 ≤ e.list.length ∧
    e.list.Pairwise (· < ·) ∧ ∀ k, 0 < k → k < e.size → isFinite (e.edge k) = true
  accepted_iff : ∀ e, Reached list (fun _ _ => True) e → (new e.list = .ok e ↔ e.AllFinite)
  bins_iff : ∀ e, Reached list (fun _ _ => True) e → e.Addressable →
    (e.BoundedBins ↔ e.AllFinite)
  cut : ∀ e, Reached list (fun _ _ => True) e → e.AllFinite →
    ∀ lo hi merge, lo < hi → hi ≤ e.size → 0 < merge → (e.slice lo hi merge).AllFinite
  grown_iff : ∀ e x, Reached list (fun _ _ => True) e →
    ((e.grow x).2.2.AllFinite ↔ e.AllFinite ∧ ¬ e.Escapes x)
  sound : ∀ e, Reached list (fun e x => ¬ e.Escapes x) e → e.Sound
  /-- No growth leaves the range if everything is within an eighth of it. -/
  modest : (∀ y ∈ list, Moderate y) → ∀ e, Reached list Modest e → e.Sound

/-- Edges stay finite, and as new ones are, over every run in which no growth leaves the
range. -/
theorem staysFinite (list : List Float) : StaysFinite list where
  ordered e reached := by
    have rising := reached.rising
    exact ⟨(rising.length_eq ▸ Nat.succ_le_succ rising.sized), rising.ascends,
      fun _ behind before => rising.isFinite_inner behind before⟩
  accepted_iff _ reached := reached.rising.new_iff
  bins_iff _ reached small := reached.rising.boundedBins_iff small
  cut _ reached finite _ _ _ some_bin inside positive :=
    reached.rising.allFinite_slice positive some_bin inside finite
  grown_iff e x _ := allFinite_grow_iff e x
  sound _ reached := reached.rising.sound (reached.allFinite fun _ _ => id)
  modest moderate _ reached :=
    reached.rising.sound (reached.contained moderate).allFinite

/-- Three edges that have grown by half a bin, and the last two bins of them in one. -/
theorem sound_grown : Reached [0, 1, 2] Modest ⟨[1, 2.5]⟩ ∧ Sound ⟨[1, 2.5]⟩ := by
  have made : Reached [0, 1, 2] Modest ⟨[0, 1, 2]⟩ := .made rfl
  have grown : Reached [0, 1, 2] Modest ⟨[0, 1, 2, 2.5]⟩ :=
    .grown (x := 2.1) made ⟨by decide, fun _ => by decide⟩
  have cut : Reached [0, 1, 2] Modest (slice ⟨[0, 1, 2, 2.5]⟩ 1 3 2) :=
    .cut grown (by decide) (by decide) (by decide)
  exact ⟨cut, (staysFinite [0, 1, 2]).modest (by decide) _ cut⟩

set_option maxRecDepth 8000 in
/-- The range goes on above the number, but half a bin above it is beyond the range. -/
theorem not_finite_wide : new [-halfRange, halfRange] = .ok ⟨[-halfRange, halfRange]⟩ ∧
    halfRange < largest ∧
    (grow ⟨[-halfRange, halfRange]⟩ halfRange).2.2.list = [-halfRange, halfRange, infinity] ∧
    new [-halfRange, halfRange, infinity] = .error .unboundedEdge ∧
    ¬ ∀ e, Reached [-halfRange, halfRange] (fun _ _ => True) e → e.AllFinite := by
  have made : new [-halfRange, halfRange] = .ok ⟨[-halfRange, halfRange]⟩ := rfl
  have grown : (grow ⟨[-halfRange, halfRange]⟩ halfRange).2.2.list =
      [-halfRange, halfRange, infinity] := rfl
  refine ⟨made, by decide, grown, rfl, fun finite => ?_⟩
  have last : infinity ∈ [-halfRange, halfRange] ++ [infinity] :=
    List.mem_append_right _ (List.mem_singleton_self _)
  rw [List.cons_append, List.singleton_append, ← grown] at last
  have finite := finite _ (.grown (x := halfRange) (.made made) trivial) infinity last
  contradiction

end Edges
end Binning
