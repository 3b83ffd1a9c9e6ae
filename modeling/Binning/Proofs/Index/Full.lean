import Binning.Proofs.Axis.Made
import Binning.Proofs.Index.Choices

/-! Ranges bin by bin. Each bin of the range keeps its slot, and so does a flow bin on a
side where the range comes to the end of the axis. All bins of an axis are the axis
itself, and every index stays where it is. -/
namespace Binning
open Results

/-! ### The axis -/

theorem Grid.slice_full {α : Type} [Scalar α] (g : Grid α) : g.slice 0 g.size 1 = g := by
  rw [slice, if_pos ⟨rfl, rfl⟩, Nat.div_one]

theorem Edges.stops_full (n : Nat) : stops 0 n 1 = List.range (n + 1) := by
  simp [stops, Nat.mod_one]

theorem Edges.slice_full {e : Edges} (sized : 0 < e.size) : e.slice 0 e.size 1 = e := by
  have long : e.list.length - 1 + 1 = e.list.length := by
    unfold size at sized
    omega
  rw [slice, stops_full, size, long]
  refine congrArg Edges.mk (List.ext_getElem ?_ ?_)
  · rw [List.length_map, List.length_range]
  · intro k below inside
    simp [edge, inside]

theorem IntegerRange.slice_full {r : IntegerRange} (start : Word64.Signed r.start) :
    r.slice 0 r.size = r := by
  have same : Word64.wrapSigned (r.start + Word64.signed 0) = r.start := by
    unfold Word64.Signed Word64.minSigned Word64.maxSigned at start
    rw [Word64.signed_of_lt (by decide), Word64.wrapSigned, Int.bmod_def]
    omega
  rw [slice, same, Nat.sub_zero]

theorem Category.slice_full (c : Category) : c.slice 0 c.size = c := by
  cases c with
  | ints labels => exact congrArg ints (List.take_length ..)
  | texts labels => exact congrArg texts (List.take_length ..)

namespace Axis
variable {a : Axis}

/-- A range of integers starts at a signed word, as all that can be asked for do. -/
def StartsSigned (a : Axis) : Prop :=
  match a.law with
  | .integer r => Word64.Signed r.start
  | _ => True

instance (a : Axis) : Decidable a.StartsSigned :=
  match a with
  | ⟨.integer r, _, _⟩ => inferInstanceAs (Decidable (Word64.Signed r.start))
  | ⟨.regular _, _, _⟩ | ⟨.edges _, _, _⟩ | ⟨.category _, _, _⟩ => .isTrue trivial

theorem sliceLaw_full (sized : 0 < a.size) (starts : a.StartsSigned) :
    a.sliceLaw 0 a.size 1 = .ok a.law := by
  obtain ⟨law, options, label⟩ := a
  unfold sliceLaw
  cases law with
  | regular r =>
    have grid : r.slice 0 r.size 1 = r := congrArg (Regular.mk · _) (Grid.slice_full r.grid)
    simp only [size, Nat.mod_one, grid]
    split
    · exact if_neg (by simp)
    · rfl
  | edges e => exact congrArg (Except.ok <| Law.edges ·) (Edges.slice_full sized)
  | integer r => exact congrArg (Except.ok <| Law.integer ·) (IntegerRange.slice_full starts)
  | category c => exact congrArg (Except.ok <| Law.category ·) (Category.slice_full c)

/-- All bins of an axis are the axis. -/
theorem slice_full (sized : 0 < a.size) (starts : a.StartsSigned) :
    a.slice 0 a.size 1 = .ok a := by
  rw [slice, if_neg (by omega), sliceLaw_full sized starts]
  rfl

end Axis

/-! ### Ranges -/

variable {a new : Axis} {axes : List Axis} {entry : Index} {entries : List Index} {lo hi : Nat}

/-- The entry is a range with these bins, and it groups nothing. -/
inductive Index.Takes (a : Axis) (lo hi : Nat) : Index → Prop where
  | keep {start stop : Option Loc} :
    Ranges a start stop lo hi → Takes a lo hi (.slice ⟨start, stop, none⟩)
  | group {start stop : Option Loc} :
    Ranges a start stop lo hi → Takes a lo hi (.slice ⟨start, stop, some (.rebin 1)⟩)

/-- The slots of the bins `[lo, hi)` and those of the flow bins on the sides that are not
cut are kept. -/
def Route.cut (a new : Axis) (lo hi : Nat) : Route :=
  .regroup a new lo hi 1 (lo == 0) (hi == a.size)

theorem Index.Takes.route (takes : Takes a lo hi entry) (fits : a.Fits)
    (sliced : a.slice lo hi 1 = .ok new) : entry.route a = .ok (.cut a new lo hi) := by
  cases takes with
  | keep ranges | group ranges =>
    simp only [Index.route, bound_of_bounds fits ranges.start, bound_of_bounds fits ranges.stop,
      sliced, bind, Except.bind, if_neg (Nat.not_le.mpr ranges.lt)]
    rfl

theorem Route.index?_cut (fits : a.Fits) (sliced : a.slice lo hi 1 = .ok new) {i k : Int}
    (has : a.representable i = true) : (cut a new lo hi).index? a i = some k ↔ a.Kept lo hi i k := by
  obtain ⟨some_bin, inside, _⟩ := Axis.size_of_slice sliced
  have word := Nat.lt_of_le_of_lt a.size_le_extent fits
  exact (index?_regroup fits sliced (by omega) has).trans (Axis.grouped_one_iff some_bin)

/-! ### Full ranges -/

/-- The entry is a range whose bounds are open or come to the ends of the axis,
and it groups nothing. -/
inductive Index.Full (a : Axis) : Index → Prop where
  | keep {start stop : Option Loc} :
    Bounds a start 0 0 → Bounds a stop a.size a.size → Full a (.slice ⟨start, stop, none⟩)
  | group {start stop : Option Loc} :
    Bounds a start 0 0 → Bounds a stop a.size a.size →
      Full a (.slice ⟨start, stop, some (.rebin 1)⟩)

/-- What an ellipsis stands for is full. -/
theorem Index.full_open (a : Axis) : Full a (.slice {}) := .keep rfl rfl

theorem Index.Full.takes (full : Full a entry) (sized : 0 < a.size) : Takes a 0 a.size entry := by
  cases full with
  | keep first last => exact .keep ⟨first, last, sized⟩
  | group first last => exact .group ⟨first, last, sized⟩

/-- Every slot stays where it is. -/
def Route.whole (a : Axis) : Route := .regroup a a 0 a.size 1 true true

theorem Route.cut_full (a : Axis) : cut a a 0 a.size = whole a := by
  rw [cut, whole, beq_self_eq_true, beq_self_eq_true]

theorem Index.Full.route (full : Full a entry) (sized : 0 < a.size) (fits : a.Fits)
    (starts : a.StartsSigned) : entry.route a = .ok (.whole a) := by
  rw [← Route.cut_full]
  exact (full.takes sized).route fits (Axis.slice_full sized starts)

theorem Route.index?_whole {i : Int} (sized : 0 < a.size) (fits : a.Fits)
    (starts : a.StartsSigned) (has : a.representable i = true) :
    (whole a).index? a i = some i := by
  have kept : a.Kept 0 a.size i i := by
    unfold Axis.Kept
    rcases fits.representable_iff_cases.mp has with ⟨same, _⟩ | ⟨low, high⟩ | ⟨same, _⟩ <;> omega
  rw [← cut_full]
  exact (index?_cut fits (Axis.slice_full sized starts) has).mpr kept

/-! ### All axes -/

section
variable (sized : ∀ a ∈ axes, 0 < a.size) (fits : ∀ a ∈ axes, a.Fits)
  (starts : ∀ a ∈ axes, a.StartsSigned)
include sized fits starts

theorem Index.mapM_route_full (full : List.Forall₂ Full axes entries) :
    ((axes.zip entries).mapM fun (a, entry) => route a entry) = .ok (axes.map .whole) := by
  rw [mapM_eq_ok]
  induction full with
  | nil => exact .nil
  | cons first _ ih =>
    obtain ⟨some_bin, sized⟩ := List.forall_mem_cons.mp sized
    obtain ⟨fit, fits⟩ := List.forall_mem_cons.mp fits
    obtain ⟨start, starts⟩ := List.forall_mem_cons.mp starts
    exact .cons (first.route some_bin fit start) (ih sized fits starts)

/-- Every tuple of indices goes to itself. -/
theorem Reduction.goes_whole_iff {is ks : List Int} (has : Axis.Addresses axes is) :
    Goes axes (axes.map .whole) is ks ↔ ks = is := by
  induction has generalizing ks with
  | nil =>
    constructor
    · rintro ⟨⟩
      rfl
    · rintro rfl
      exact .nil
  | cons first _ ih =>
    obtain ⟨some_bin, sized⟩ := List.forall_mem_cons.mp sized
    obtain ⟨fit, fits⟩ := List.forall_mem_cons.mp fits
    obtain ⟨start, starts⟩ := List.forall_mem_cons.mp starts
    have stays := Route.index?_whole some_bin fit start first
    rw [List.map_cons, goes_keep_iff rfl]
    simp only [stays, ih sized fits starts, Option.some.injEq]
    constructor
    · rintro ⟨_, _, rfl, rfl, rfl⟩
      rfl
    · rintro rfl
      exact ⟨_, _, rfl, rfl, rfl⟩

end

theorem Reduction.stay_whole (axes : List Axis) : stay (axes.map .whole) = axes := by
  rw [stay, List.filterMap_map]
  exact List.filterMap_some

theorem Reduction.lands_whole (fits : ∀ a ∈ axes, a.Fits) :
    List.Forall₂ (fun a r => Route.Lands a r) axes (axes.map .whole) := by
  rw [List.forall₂_map_right_iff, List.forall₂_same]
  exact fun a among => Route.lands_regroup (fits a among)

end Binning
