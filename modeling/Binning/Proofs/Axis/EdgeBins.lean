import Binning.Axis.Geometry
import Binning.Proofs.Binary64.Order
import Binning.Proofs.Law.Lookup

/-! Lookup between edges inverts the bins. With an infinite edge on either side the
edges cut the line into half-open pieces, and the index of a number is that of the
piece it lies in; the bin of an index in range is that piece. -/
namespace Binning
open Results

namespace Edges
variable {e : Edges} {x y : Float}

/-- Edge `i`; infinite before the first and behind the last. -/
def bound (e : Edges) (i : Int) : Float :=
  if i < 0 then -Binary64.infinity
  else if (e.size : Int) < i then Binary64.infinity
  else e.edge i.toNat

/-- A memory holds the edges. -/
def Addressable (e : Edges) : Prop := Word64.InMemory e.list.length

namespace Addressable
variable (small : e.Addressable)
include small

theorem size_lt : e.size < 2 ^ 53 := by
  have few := Word64.inMemory_iff.mp small
  unfold size
  omega

/-- The coordinate at a whole bin number is the edge. -/
theorem value_eq_edge {k : Nat} (inside : k ≤ e.size) (whole : Binary64.Denotes x k) :
    e.value x = e.edge k := by
  have word := small.size_lt
  have size : Binary64.Denotes (Binary64.ofNat e.size) e.size := Binary64.denotes_ofNat word
  have number : Binary64.Denotes (Binary64.ofNat k) k := Binary64.denotes_ofNat (by omega)
  have not_below : ¬ x < 0 := by
    rw [whole.lt_iff Binary64.denotes_zero]
    omega
  have not_above : ¬ Binary64.ofNat e.size < x := by
    rw [size.lt_iff whole]
    omega
  have position : Binary64.toUnsigned x = k := by
    rw [whole.toUnsigned, Word64.clampUnsigned, Word64.maxUnsigned]
    omega
  obtain ⟨rest, exact, difference⟩ := whole.sub number (by omega)
  have nothing : (x - Binary64.ofNat k == 0) = true := by
    rw [difference.beq_iff Binary64.denotes_zero, exact (by omega), Int.sub_self]
  unfold value
  simp only [not_below, not_above, if_false, position, nothing, if_true]
  split
  · rename_i last
    rw [whole.beq_iff size] at last
    rw [Int.ofNat.inj last]
  · rfl

end Addressable

theorem bound_of_neg {i : Int} (below : i < 0) : e.bound i = -Binary64.infinity := if_pos below

theorem bound_of_le {k : Nat} (inside : k ≤ e.size) : e.bound k = e.edge k := by
  rw [bound, if_neg (by omega), if_neg (by omega), Int.toNat_natCast]

theorem bound_of_gt {i : Int} (above : (e.size : Int) < i) : e.bound i = Binary64.infinity := by
  rw [bound, if_neg (by omega), if_pos above]

namespace Ordered
variable (ordered : e.Ordered)
include ordered

theorem defined_edge {k : Nat} (inside : k ≤ e.size) : (e.edge k).isNaN = false :=
  Binary64.not_isNaN_of_isFinite (ordered.finite_edge inside)

theorem defined_bound (i : Int) : (e.bound i).isNaN = false := by
  unfold bound
  split
  · rfl
  split
  · rfl
  · exact ordered.defined_edge (by omega)

/-! ### Lookup -/

/-- A number has come as far as an index exactly if it has reached its edge. -/
theorem le_index_iff_bound (defined : x.isNaN = false) (bounded : x ≠ Binary64.infinity) {i : Int}
    (low : -1 ≤ i) (high : i ≤ e.size + 1) : i ≤ e.index x ↔ e.bound i ≤ x := by
  obtain ⟨least, most⟩ := index_bounds ordered.sized x
  rcases Int.lt_or_le i 0 with before | inside
  · rw [bound_of_neg before]
    refine iff_of_true (by omega) (Binary64.neg_infinity_le defined)
  rcases Int.lt_or_le e.size i with behind | inside'
  · rw [bound_of_gt behind, Binary64.infinity_le_iff defined]
    refine iff_of_false (by omega) bounded
  · obtain ⟨k, rfl⟩ := Int.eq_ofNat_of_zero_le inside
    have reached := ordered.le_index_iff (x := x) (Int.ofNat_le.mp inside')
    rw [bound_of_le (Int.ofNat_le.mp inside'), reached, defined]
    simp

/-- The index is the only one whose edges enclose the number. -/
theorem index_eq_iff (defined : x.isNaN = false) (bounded : x ≠ Binary64.infinity) {i : Int}
    (low : -1 ≤ i) (high : i ≤ e.size) :
    e.index x = i ↔ e.bound i ≤ x ∧ x < e.bound (i + 1) := by
  have first := ordered.le_index_iff_bound defined bounded low (by omega)
  have next := ordered.le_index_iff_bound defined bounded (i := i + 1) (by omega) (by omega)
  rw [Binary64.lt_iff_not_le defined (ordered.defined_bound _), ← first, ← next]
  omega

theorem index_infinity : e.index Binary64.infinity = e.size := by
  have most := (index_bounds ordered.sized Binary64.infinity).2
  have reached := (ordered.le_index_iff (x := Binary64.infinity) (Nat.le_refl e.size)).mpr
    (.inr (Binary64.le_infinity_of_defined (ordered.defined_edge (Nat.le_refl _))))
  omega

theorem index_neg_infinity : e.index (-Binary64.infinity) = -1 := by
  rw [ordered.index_eq_iff rfl (by decide) (Int.le_refl _) (by omega)]
  refine ⟨Binary64.neg_infinity_le rfl, ?_⟩
  have first : e.bound (-1 + 1) = e.edge 0 := bound_of_le (Nat.zero_le _)
  obtain ⟨p, found⟩ := Option.isSome_iff_exists.mp (ordered.finite_edge (Nat.zero_le _))
  rw [first, Binary64.lt_iff_level rfl (ordered.defined_edge (Nat.zero_le _)),
    Binary64.level_neg_infinity, Binary64.level_of_parts? found]
  exact WithBot.bot_lt_coe _

/-- A greater number has no smaller index. -/
theorem index_mono (below : x ≤ y) : e.index x ≤ e.index y := by
  obtain ⟨left, right⟩ := Binary64.defined_of_le below
  obtain ⟨low, high⟩ := index_bounds ordered.sized x
  by_cases last : y = Binary64.infinity
  · rw [last, ordered.index_infinity]
    exact high
  have bounded : x ≠ Binary64.infinity := by
    rintro rfl
    exact last ((Binary64.infinity_le_iff right).mp below)
  have reached := (ordered.le_index_iff_bound left bounded low (by omega)).mp (Int.le_refl _)
  exact (ordered.le_index_iff_bound right last low (by omega)).mpr (Binary64.le_trans reached below)

/-! ### Bins -/

/-- The bin of an index in range holds the numbers with that index. -/
theorem contains_iff {k : Nat} (inside : k < e.size) :
    (Interval.mk (e.edge k) (e.edge (k + 1))).contains x = true ↔ e.index x = k := by
  have ascending : e.edge k ≤ e.edge (k + 1) := by
    rw [Binary64.le_iff_level (ordered.defined_edge (by omega)) (ordered.defined_edge inside)]
    refine Std.le_of_lt ?_
    rw [← Binary64.lt_iff_level (ordered.defined_edge (by omega)) (ordered.defined_edge inside)]
    exact ordered.edge_lt (Nat.lt_succ_self k) inside
  have enclosed : (Interval.mk (e.edge k) (e.edge (k + 1))).contains x = true ↔
      e.edge k ≤ x ∧ x < e.edge (k + 1) := by
    rw [Interval.contains]
    simp only [ascending, if_true, Bool.and_eq_true, decide_eq_true_eq]
  have lower : e.bound k = e.edge k := bound_of_le (by omega)
  have upper : e.bound ((k : Int) + 1) = e.edge (k + 1) := bound_of_le inside
  rw [enclosed]
  constructor
  · rintro ⟨reached, short⟩
    have defined := (Binary64.defined_of_le reached).2
    have bounded : x ≠ Binary64.infinity := by
      rintro rfl
      rw [Binary64.lt_iff_not_le rfl (ordered.defined_edge inside)] at short
      exact short (Binary64.le_infinity_of_defined (ordered.defined_edge inside))
    rw [ordered.index_eq_iff defined bounded (by omega) (by omega), lower, upper]
    exact ⟨reached, short⟩
  · intro found
    have defined : x.isNaN = false := by
      rw [← Bool.not_eq_true]
      intro nan
      rw [index, if_pos nan] at found
      omega
    have bounded : x ≠ Binary64.infinity := by
      rintro rfl
      rw [ordered.index_infinity] at found
      omega
    rw [ordered.index_eq_iff defined bounded (by omega) (by omega), lower, upper] at found
    exact found

end Ordered
end Edges

namespace Axis

/-- An axis over edges that are accepted, or a range of the bins of one. -/
inductive OverEdges : Axis → Prop where
  | given {list : List Float} {e : Edges} (options : Options) (label : Option String) :
      Edges.new list = .ok e → OverEdges ⟨.edges e, options, label⟩
  | cut {a new : Axis} {lo hi merge : Nat} :
      OverEdges a → a.slice lo hi merge = .ok new → OverEdges new

variable {a : Axis} {e : Edges}

theorem OverEdges.exists_ordered (made : a.OverEdges) : ∃ e, a.law = .edges e ∧ e.Ordered := by
  induction made with
  | given _ _ accepted => exact ⟨_, rfl, Edges.ordered_of_new accepted⟩
  | @cut a new lo hi merge _ cut ih =>
    obtain ⟨d, law, ordered⟩ := ih
    obtain ⟨some_bin, inside, positive, _⟩ := size_of_slice cut
    simp only [slice, guard_eq_ok, bind_eq_ok, pure_eq_ok] at cut
    obtain ⟨_, new_law, cut, rfl⟩ := cut
    rw [sliceLaw, law] at cut
    cases cut
    rw [size_of_edges law] at inside
    exact ⟨_, rfl, ordered.slice positive some_bin inside⟩

theorem index_of_edges [Elementary] (law : a.law = .edges e) {c : Coord} {x : Float}
    (number : c.toFloat? = some x) : a.index c = .ok (e.index x) := by
  rw [Axis.index, law]
  simp only [numeric, number]
  rfl

theorem bin_of_edges (law : a.law = .edges e) (small : e.Addressable) {k : Nat}
    (inside : k < e.size) :
    a.bin k = .ok (.interval ⟨e.edge k, e.edge (k + 1)⟩) := by
  have word := small.size_lt
  have value (x : Float) : a.value x = .ok (e.value x) := by
    rw [Axis.value, law]
    rfl
  have same : Binary64.ofInt k = Binary64.ofNat k := if_pos (by omega)
  have lower : Binary64.Denotes (Binary64.ofInt k) k := by
    rw [same]
    exact Binary64.denotes_ofNat (by omega)
  obtain ⟨next, exact_next, upper⟩ := lower.add Binary64.denotes_one (by omega)
  have step : next = (k + 1 : Nat) := exact_next (by omega)
  have first := small.value_eq_edge (Nat.le_of_lt inside) lower
  have second := small.value_eq_edge inside (step ▸ upper)
  rw [Axis.bin, law]
  simp only [value, first, second]
  rfl

/-- The index of every number is that of the bin between whose edges it lies. -/
structure InvertsBins (a : Axis) (e : Edges) : Prop where
  law : a.law = .edges e
  /-- Every number but NaN and the upper infinity has an index, and that index is the
  only one whose edges enclose the number. -/
  encloses : ∀ c x, c.toFloat? = some x → x.isNaN = false → x ≠ Binary64.infinity →
    ∃ i : Int, a.index c = .ok i ∧ -1 ≤ i ∧ i ≤ e.size ∧
      ∀ j : Int, -1 ≤ j → j ≤ e.size → (e.bound j ≤ x ∧ x < e.bound (j + 1) ↔ j = i)
  beyond : ∀ c x, c.toFloat? = some x → x.isNaN = true ∨ x = Binary64.infinity →
    a.index c = .ok e.size
  below : ∀ c, c.toFloat? = some (-Binary64.infinity) → a.index c = .ok (-1)
  ascends : ∀ c d x y, c.toFloat? = some x → d.toFloat? = some y → x ≤ y →
    ∃ i j : Int, a.index c = .ok i ∧ a.index d = .ok j ∧ i ≤ j
  /-- The bins in range are those between two edges that follow each other, in all lists
  of edges that a memory holds. -/
  bins : e.Addressable → ∀ k < e.size,
    a.bin (k : Nat) = .ok (.interval ⟨e.edge k, e.edge (k + 1)⟩)
  /-- A number from the first edge to the last is in the bin of its index only. -/
  contains : e.Addressable → ∀ c x, c.toFloat? = some x → e.edge 0 ≤ x → x < e.edge e.size →
    ∃ k < e.size, a.index c = .ok (k : Nat) ∧ ∀ j < e.size, ∃ b,
      a.bin (j : Nat) = .ok (.interval b) ∧ (b.contains x = true ↔ j = k)

/-- Lookup between edges inverts the bins, also after ranges have been cut out. -/
theorem OverEdges.inverts (made : a.OverEdges) : ∃ e, a.InvertsBins e := by
  obtain ⟨e, law, ordered⟩ := made.exists_ordered
  refine ⟨e, law, ?encloses, ?beyond, ?below, ?ascends, ?bins, ?contains⟩
  case encloses =>
    intro c x number defined bounded
    obtain ⟨low, high⟩ := Edges.index_bounds ordered.sized x
    refine ⟨e.index x, index_of_edges law number, low, high, fun j least most => ?_⟩
    rw [← ordered.index_eq_iff defined bounded least most, eq_comm]
  case beyond =>
    rintro c x number (nan | rfl)
    · rw [index_of_edges law number, Edges.index, if_pos nan]
    · rw [index_of_edges law number, ordered.index_infinity]
  case below =>
    intro c number
    rw [index_of_edges law number, ordered.index_neg_infinity]
  case ascends =>
    intro c d x y left right le
    exact ⟨_, _, index_of_edges law left, index_of_edges law right, ordered.index_mono le⟩
  case bins =>
    intro small k inside
    exact bin_of_edges law small inside
  case contains =>
    intro small c x number first last
    have defined := (Binary64.defined_of_le first).2
    have defined_last := ordered.defined_edge (Nat.le_refl e.size)
    have from_first : 0 ≤ e.index x := (ordered.le_index_iff (Nat.zero_le _)).mpr (.inr first)
    have to_last : ¬ (e.size : Int) ≤ e.index x := by
      rw [ordered.le_index_iff (Nat.le_refl _), defined]
      simpa [Binary64.lt_iff_not_le defined defined_last] using last
    obtain ⟨k, found⟩ := Int.eq_ofNat_of_zero_le from_first
    refine ⟨k, by omega, ?_, fun j inside => ?_⟩
    · rw [index_of_edges law number, found]
    · refine ⟨_, bin_of_edges law small inside, ?_⟩
      rw [ordered.contains_iff inside, found, Int.ofNat_inj, eq_comm]

/-- Five edges, and the last three bins between them in groups of two. -/
def cutEdges : Axis := ⟨.edges ⟨[1, 3, 4]⟩, .flow, none⟩

theorem inverts_cutEdges : cutEdges.OverEdges ∧ ∃ e, cutEdges.InvertsBins e := by
  have accepted : Edges.new [0, 1, 2, 3, 4] = .ok ⟨[0, 1, 2, 3, 4]⟩ := rfl
  have cut : Axis.slice ⟨.edges ⟨[0, 1, 2, 3, 4]⟩, .flow, none⟩ 1 4 2 = .ok cutEdges := rfl
  have made : cutEdges.OverEdges := .cut (.given .flow none accepted) cut
  exact ⟨made, made.inverts⟩

end Axis
end Binning
