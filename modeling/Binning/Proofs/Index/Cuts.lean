import Binning.Proofs.Axis.Located
import Binning.Proofs.Index.OneAxis
import Binning.Proofs.Law.Lookup

/-! Cuts. The bins of a range are an axis again, and a range of its bins is a range of
the first axis: with the same edges, integers or labels, and with the same flow bins
kept, for a side that neither cut takes anything from is one that a single cut leaves
alone. -/
namespace Binning
open Results

variable {lo hi m n merge : Nat}

/-! ### Laws -/

theorem Edges.stops_add (lo m n merge : Nat) :
    stops (lo + m) (lo + n) merge = (stops m n merge).map (lo + ·) := by
  simp only [stops, Nat.add_sub_add_left, List.map_append, List.map_map, Function.comp_def,
    Nat.add_assoc]
  split <;> rfl

theorem Edges.slice_slice {e : Edges} (some_bin : lo < hi) (some_rest : m < n)
    (inside : n ≤ hi - lo) (positive : 0 < merge) :
    (e.slice lo hi 1).slice m n merge = e.slice (lo + m) (lo + n) merge := by
  have single : (hi - lo) ⌈/⌉ 1 = hi - lo := ceilDiv_one _
  change Edges.mk ((stops m n merge).map _) = ⟨(stops (lo + m) (lo + n) merge).map _⟩
  rw [stops_add, List.map_map]
  refine congrArg Edges.mk (List.map_congr_left fun k stop => ?_)
  have below := le_of_mem_stops positive some_rest stop
  rw [edge_slice Nat.one_pos some_bin (by omega), Nat.mul_one, Nat.min_eq_left (by omega)]
  rfl

theorem IntegerRange.slice_slice {r : IntegerRange} (small : lo + m < 2 ^ 63) :
    (r.slice lo hi).slice m n = r.slice (lo + m) (lo + n) := by
  have first : Word64.signed lo = lo := Word64.signed_of_lt (by omega)
  have second : Word64.signed m = m := Word64.signed_of_lt (by omega)
  have both : Word64.signed (lo + m) = lo + m := Word64.signed_of_lt small
  rw [slice, slice, slice, first, second, both, Nat.add_sub_add_left, Word64.wrapSigned,
    Word64.wrapSigned, Word64.wrapSigned, Int.bmod_add_bmod, Int.add_assoc]

theorem Category.slice_slice {c : Category} (ordered : lo ≤ hi) (inside : n ≤ hi - lo) :
    (c.slice lo hi).slice m n = c.slice (lo + m) (lo + n) := by
  have labels {α : Type} (l : List α) :
      (((l.take hi).drop lo).take n).drop m = (l.take (lo + n)).drop (lo + m) := by
    rw [List.take_drop, List.take_take, List.drop_drop, Nat.min_eq_left (by omega)]
  cases c with
  | ints is => exact congrArg ints (labels is)
  | texts ss => exact congrArg texts (labels ss)

namespace Axis
variable {a b new : Axis}

/-! ### Axes -/

theorem slice_eq_ok : a.slice lo hi merge = .ok new ↔
    (lo < hi ∧ hi ≤ a.size ∧ 0 < merge) ∧
      ∃ law, a.sliceLaw lo hi merge = .ok law ∧ { a with law } = new := by
  simp only [slice, guard_eq_ok, bind_eq_ok, pure_eq_ok, not_or, not_le, not_lt, Nat.pos_iff_ne_zero,
    ne_eq]

/-- Single bins can be taken from all axes that are not regular. -/
theorem exists_slice (explicit : a.isRegular = false) (some_bin : lo < hi) (inside : hi ≤ a.size) :
    ∃ new, a.slice lo hi 1 = .ok new := by
  have cut : ∃ law, a.sliceLaw lo hi 1 = .ok law := by
    unfold sliceLaw
    unfold isRegular at explicit
    cases law : a.law with
    | regular =>
      rw [law] at explicit
      contradiction
    | edges | integer | category => exact ⟨_, rfl⟩
  obtain ⟨law, cut⟩ := cut
  exact ⟨_, slice_eq_ok.mpr ⟨⟨some_bin, inside, Nat.one_pos⟩, law, cut, rfl⟩⟩

/-- A range of a range is a range of the axis. -/
theorem slice_slice (explicit : a.isRegular = false) (fits : a.Fits)
    (first : a.slice lo hi 1 = .ok b) (second : b.slice m n 1 = .ok new) :
    a.slice (lo + m) (lo + n) 1 = .ok new := by
  obtain ⟨_, _, _, size, _⟩ := size_of_slice first
  obtain ⟨⟨some_bin, inside, _⟩, law, cut, rfl⟩ := slice_eq_ok.mp first
  obtain ⟨⟨some_rest, rest, _⟩, last, again, rfl⟩ := slice_eq_ok.mp second
  rw [size, ceilDiv_one] at rest
  have word := Nat.lt_of_le_of_lt a.size_le_extent fits
  refine slice_eq_ok.mpr ⟨⟨by omega, by omega, Nat.one_pos⟩, last, ?_, rfl⟩
  obtain ⟨start, options, label⟩ := a
  cases start with
  | regular => contradiction
  | edges e =>
    cases cut
    cases again
    exact congrArg (Except.ok <| Law.edges ·)
      (Edges.slice_slice some_bin some_rest rest Nat.one_pos).symm
  | integer r =>
    cases cut
    cases again
    exact congrArg (Except.ok <| Law.integer ·) (IntegerRange.slice_slice (by omega)).symm
  | category c =>
    cases cut
    cases again
    exact congrArg (Except.ok <| Law.category ·) (Category.slice_slice (Nat.le_of_lt some_bin) rest).symm

theorem isRegular_of_slice (explicit : a.isRegular = false) (sliced : a.slice lo hi 1 = .ok new) :
    new.isRegular = false := by
  obtain ⟨_, law, cut, rfl⟩ := slice_eq_ok.mp sliced
  obtain ⟨start, options, label⟩ := a
  cases start with
  | regular => contradiction
  | edges | integer | category =>
    cases cut
    rfl

/-- What is left of a range of integers starts at a signed word, wherever it started. -/
theorem startsSigned_of_slice (explicit : a.isRegular = false)
    (sliced : a.slice lo hi 1 = .ok new) : new.StartsSigned := by
  obtain ⟨_, law, cut, rfl⟩ := slice_eq_ok.mp sliced
  obtain ⟨start, options, label⟩ := a
  cases start with
  | regular => contradiction
  | edges | category =>
    cases cut
    trivial
  | integer r =>
    cases cut
    change Word64.Signed (Word64.wrapSigned _)
    unfold Word64.Signed Word64.minSigned Word64.maxSigned Word64.wrapSigned
    rw [Int.bmod_def]
    omega

/-! ### Indices -/

/-- An index that is kept by one cut and then by the other is kept by both at once.
Where a flow bin is concerned, the first cut comes to the end of the axis and the second
to the end of what is left. -/
theorem kept_kept_iff (size : b.size = hi - lo) (inside : hi ≤ a.size) (some_rest : m < n)
    (rest : n ≤ hi - lo) {i k : Int} :
    (∃ j, a.Kept lo hi i j ∧ b.Kept m n j k) ↔ a.Kept (lo + m) (lo + n) i k := by
  unfold Kept
  rw [size]
  constructor
  · rintro ⟨j, first, second⟩
    omega
  · rintro (⟨low, high, rfl⟩ | ⟨rfl, from_first, rfl⟩ | ⟨rfl, to_last, rfl⟩)
    · exact ⟨m + k, by omega, by omega⟩
    · exact ⟨-1, by omega, by omega⟩
    · exact ⟨(hi - lo : Nat), by omega, by omega⟩

theorem Kept.left_unique {i j k : Int} (some_bin : lo < hi)
    (left : a.Kept lo hi i k) (right : a.Kept lo hi j k) : i = j := by
  unfold Kept at left right
  omega

end Axis

variable {a new : Axis} {axes : List Axis} {d : Nat}

/-! ### Entries -/

/-- The entries take these bins of the axis at one place and full ranges of all others. -/
inductive Index.Cuts (lo hi : Nat) : Nat → List Axis → List Index → Prop where
  | here {a : Axis} {axes : List Axis} {entry : Index} {entries : List Index} :
    Takes a lo hi entry → List.Forall₂ Full axes entries → Cuts lo hi 0 (a :: axes) (entry :: entries)
  | there {d : Nat} {a : Axis} {axes : List Axis} {entry : Index} {entries : List Index} :
    Full a entry → Cuts lo hi d axes entries → Cuts lo hi (d + 1) (a :: axes) (entry :: entries)

theorem bounds_ofBin (fits : a.Fits) (inside : n ≤ a.size) (default : Nat) :
    Bounds a (some (.ofBin n)) default n := by
  have word := Nat.lt_of_le_of_lt a.size_le_extent fits
  have signed : Word64.Signed ((n : Int) + 0) := by
    unfold Word64.Signed Word64.minSigned Word64.maxSigned
    omega
  refine ⟨n, ?_, by omega⟩
  change Loc.checked ((n : Int) + 0) = .ok (n : Int)
  rw [Loc.checked, if_pos signed, Int.add_zero]
  rfl

/-- The bins `[lo, hi)` of the axis at place `d`, named by their numbers. -/
def Index.bins (rank d lo hi : Nat) : List Index :=
  (List.replicate rank (.slice {})).set d (.slice ⟨some (.ofBin lo), some (.ofBin hi), none⟩)

theorem Index.expand_bins (rank d lo hi : Nat) :
    expand (bins rank d lo hi) rank = .ok (bins rank d lo hi) :=
  expand_single rank d rfl

theorem Index.cuts_iff (at_axis : axes[d]? = some a) {entries : List Index} :
    Cuts lo hi d axes entries ↔ OnlyAt (Takes a lo hi) d axes entries := by
  constructor
  · intro cuts
    induction cuts with
    | here takes full =>
      cases at_axis
      exact .here takes full
    | there full _ ih => exact .there full (ih at_axis)
  · intro only
    induction only with
    | here takes full =>
      cases at_axis
      exact .here takes full
    | there full _ ih => exact .there full (ih at_axis)

theorem Index.cuts_bins (fits : a.Fits) (some_bin : lo < hi) (inside : hi ≤ a.size)
    (at_axis : axes[d]? = some a) : Cuts lo hi d axes (bins axes.length d lo hi) := by
  have takes : Takes a lo hi (.slice ⟨some (.ofBin lo), some (.ofBin hi), none⟩) :=
    .keep ⟨bounds_ofBin fits (by omega) 0, bounds_ofBin fits inside _, some_bin⟩
  exact (cuts_iff at_axis).mpr (onlyAt_single takes at_axis)

/-- Tuples that differ at most in one place are the same if they agree there. -/
theorem eq_of_set_eq {is js : List Int} {i k l : Int} (left : is[d]? = some i)
    (right : js[d]? = some i) (same : is.set d k = js.set d l) : is = js := by
  refine List.ext_getElem? fun e => ?_
  by_cases here : d = e
  · rw [← here, left, right]
  · have entry := congrArg (·[e]?) same
    simpa only [List.getElem?_set_ne here] using entry

end Binning
