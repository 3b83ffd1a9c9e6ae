import Binning.Proofs.Index.Expand
import Binning.Proofs.Routes

/-! The meaning of an index expression. Its entries choose for each axis one
bin, a sum over a range, a range of bins or a range in groups, and the choices
tell which cells are read for each cell of the result. -/
namespace Binning
open Results

/-- What becomes of an axis. -/
inductive Choice where
  /-- The bin of an index; the axis disappears. -/
  | pick (i : Int)
  /-- The sum of the bins `[lo, hi)`; the axis disappears. -/
  | sum (lo hi : Nat)
  /-- The bins `[lo, hi)` as those of another axis. -/
  | keep (lo hi : Nat) (new : Axis)
  /-- The bins `[lo, hi)` in groups of `merge` as the bins of another axis. -/
  | group (lo hi merge : Nat) (new : Axis)

namespace Choice

def axis? : Choice → Option Axis
  | pick _ | sum _ _ => none
  | keep _ _ new | group _ _ _ new => some new

def route (a : Axis) : Choice → Route
  | pick i => .select (a.slot i)
  | sum lo hi => .sum a lo hi (lo == 0) (hi == a.size)
  | keep lo hi new => .regroup a new lo hi 1 (lo == 0) (hi == a.size)
  | group lo hi merge new => .regroup a new lo hi merge (lo == 0) (hi == a.size)

/-- The number of bins in a group is small enough to be told from those in the
range by words. -/
def Exact : Choice → Prop
  | group lo hi merge _ => merge + (hi - lo) ≤ 2 ^ 64
  | _ => True

end Choice

/-! ### Entries -/

/-- A bound of a range: the resolved place, held within the bins. -/
def Bounds (a : Axis) (place : Option Loc) (default n : Nat) : Prop :=
  match place with
  | none => n = default
  | some place => ∃ i, place.resolve a = .ok i ∧ (n : Int) = max 0 (min (a.size : Int) i)

/-- A range of at least one bin. -/
structure Ranges (a : Axis) (start stop : Option Loc) (lo hi : Nat) : Prop where
  start : Bounds a start 0 lo
  stop : Bounds a stop a.size hi
  lt : lo < hi

/-- What an entry chooses for an axis. -/
inductive Chooses (a : Axis) : Index → Choice → Prop where
  | pick {place : Loc} {i : Int} :
      place.resolve a = .ok i → a.representable i = true → Chooses a (.pick place) (.pick i)
  | sum {start stop : Option Loc} {lo hi : Nat} :
      Ranges a start stop lo hi → Chooses a (.slice ⟨start, stop, some .sum⟩) (.sum lo hi)
  | keep {start stop : Option Loc} {lo hi : Nat} {new : Axis} :
      Ranges a start stop lo hi → a.slice lo hi 1 = .ok new →
        Chooses a (.slice ⟨start, stop, none⟩) (.keep lo hi new)
  | group {start stop : Option Loc} {lo hi merge : Nat} {new : Axis} :
      Ranges a start stop lo hi → a.slice lo hi merge = .ok new →
        Chooses a (.slice ⟨start, stop, some (.rebin merge)⟩) (.group lo hi merge new)

inductive Choices : List Axis → List Index → List Choice → Prop where
  | nil : Choices [] [] []
  | cons {a : Axis} {entry : Index} {choice : Choice} {axes : List Axis} {entries : List Index}
      {choices : List Choice} :
      Chooses a entry choice → Choices axes entries choices →
        Choices (a :: axes) (entry :: entries) (choice :: choices)

variable {a : Axis} {axes : List Axis} {choices : List Choice}

theorem bounds_of_bound (fits : a.Fits) {place : Option Loc} {default n : Nat}
    (done : Index.bound place a default = .ok n) : Bounds a place default n := by
  cases place with
  | none =>
    cases done
    rfl
  | some place =>
    simp only [Index.bound, bind_eq_ok, pure_eq_ok, fits.beyond_eq] at done
    obtain ⟨i, resolved, rfl⟩ := done
    exact ⟨i, resolved, Int.toNat_of_nonneg (Int.le_max_left ..)⟩

theorem bound_of_bounds (fits : a.Fits) {place : Option Loc} {default n : Nat}
    (bounds : Bounds a place default n) : Index.bound place a default = .ok n := by
  cases place with
  | none => exact congrArg _ bounds.symm
  | some place =>
    obtain ⟨i, resolved, same⟩ := bounds
    simp only [Index.bound, bind_eq_ok, pure_eq_ok, fits.beyond_eq]
    exact ⟨i, resolved, same ▸ Int.toNat_natCast n⟩

theorem Ranges.le_size {start stop : Option Loc} {lo hi : Nat} (ranges : Ranges a start stop lo hi) :
    hi ≤ a.size := by
  have stop := ranges.stop
  unfold Bounds at stop
  split at stop
  · exact Nat.le_of_eq stop
  · obtain ⟨i, _, same⟩ := stop
    omega

/-- Single bins are small enough to be told from those in a range. -/
theorem Ranges.exact_one (fits : a.Fits) {start stop : Option Loc} {lo hi : Nat}
    (ranges : Ranges a start stop lo hi) : 1 + (hi - lo) ≤ 2 ^ 64 := by
  have inside := ranges.le_size
  have word := Nat.lt_of_le_of_lt a.size_le_extent fits
  omega

/-- The entry merges groups of bins. -/
def Index.groups (entry : Index) : Bool := entry matches .slice ⟨_, _, some (.rebin _)⟩

theorem Index.Expands.groups_eq_false {entries expanded : List Index} {rank : Nat}
    (expands : Index.Expands entries rank expanded) (single : ∀ e ∈ entries, e.groups = false) :
    ∀ e ∈ expanded, e.groups = false := by
  rcases expands.entries with ⟨_, rfl⟩ | ⟨before, after, n, _, rfl, rfl⟩
  · exact single
  · simp only [List.forall_mem_append, List.forall_mem_cons] at single ⊢
    obtain ⟨first, _, last⟩ := single
    refine ⟨⟨first, ?_⟩, last⟩
    intro e among
    rw [List.eq_of_mem_replicate among]
    rfl

theorem chooses_of_route (fits : a.Fits) {entry : Index} {route : Route}
    (done : entry.route a = .ok route) :
    ∃ choice, Chooses a entry choice ∧ choice.route a = route := by
  cases entry with
  | ellipsis => simp only [Index.route, throw_eq_ok] at done
  | pick place =>
    simp only [Index.route, bind_eq_ok, ite_throw_eq_ok, pure_eq_ok] at done
    obtain ⟨i, resolved, has, rfl⟩ := done
    exact ⟨_, .pick resolved has, rfl⟩
  | slice range =>
    obtain ⟨start, stop, action⟩ := range
    simp only [Index.route, bind_eq_ok, guard_eq_ok] at done
    obtain ⟨lo, from_lo, hi, to_hi, ordered, done⟩ := done
    have ranges : Ranges a start stop lo hi :=
      ⟨bounds_of_bound fits from_lo, bounds_of_bound fits to_hi, Nat.lt_of_not_le ordered⟩
    split at done
    · cases done
      exact ⟨_, .sum ranges, rfl⟩
    · simp only [throw_eq_ok] at done
    · simp only [bind_eq_ok, pure_eq_ok] at done
      obtain ⟨new, cut, rfl⟩ := done
      exact ⟨_, .group ranges cut, rfl⟩
    · simp only [bind_eq_ok, pure_eq_ok] at done
      obtain ⟨new, cut, rfl⟩ := done
      exact ⟨_, .keep ranges cut, rfl⟩

theorem choices_of_routes {entries : List Index} {routes : List Route}
    (same : entries.length = axes.length) (fits : ∀ a ∈ axes, a.Fits)
    (routed : List.Forall₂ (fun ae route => Index.route ae.1 ae.2 = .ok route)
      (axes.zip entries) routes) :
    ∃ choices, Choices axes entries choices ∧ List.zipWith Choice.route axes choices = routes := by
  induction axes generalizing entries routes with
  | nil =>
    cases routed
    rw [List.length_eq_zero_iff.mp same]
    exact ⟨[], .nil, rfl⟩
  | cons a axes ih =>
    cases entries with
    | nil => contradiction
    | cons entry entries =>
      cases routed with
      | cons first routed =>
        obtain ⟨fit, fits⟩ := List.forall_mem_cons.mp fits
        obtain ⟨choice, chosen, rfl⟩ := chooses_of_route fit first
        obtain ⟨choices, all, rfl⟩ := ih (Nat.succ.inj same) fits routed
        exact ⟨choice :: choices, .cons chosen all, rfl⟩

theorem Choices.exact_of_single {entries : List Index} (chosen : Choices axes entries choices)
    (single : ∀ e ∈ entries, e.groups = false) : ∀ choice ∈ choices, choice.Exact := by
  induction chosen with
  | nil => exact fun _ among => absurd among List.not_mem_nil
  | cons first _ ih =>
    obtain ⟨head, single⟩ := List.forall_mem_cons.mp single
    refine List.forall_mem_cons.mpr ⟨?_, ih single⟩
    cases first with
    | group => contradiction
    | pick | sum | keep => trivial

theorem Choice.axis?_route (a : Axis) (choice : Choice) :
    (choice.route a).axis? = choice.axis? := by
  cases choice <;> rfl

theorem Choices.stay {entries : List Index} (chosen : Choices axes entries choices) :
    Reduction.stay (List.zipWith Choice.route axes choices) = choices.filterMap Choice.axis? := by
  induction chosen with
  | nil => rfl
  | cons _ _ ih =>
    unfold Reduction.stay at ih ⊢
    rw [List.zipWith_cons_cons, List.filterMap_cons, List.filterMap_cons, Choice.axis?_route, ih]

/-! ### Cells that are read -/

/-- The index `i` of an axis is read for the index `k` of the bins `[lo, hi)`. -/
def Axis.Kept (a : Axis) (lo hi : Nat) (i k : Int) : Prop :=
  0 ≤ k ∧ k < hi - lo ∧ i = lo + k ∨
    k = -1 ∧ lo = 0 ∧ i = -1 ∨
    k = hi - lo ∧ hi = a.size ∧ i = a.size

instance (a : Axis) (lo hi : Nat) (i k : Int) : Decidable (a.Kept lo hi i k) :=
  inferInstanceAs (Decidable (_ ∨ _))

/-- The cell at the indices `is` is read for the cell at the indices `ks` of the
axes that stay. -/
def reads : List Axis → List Choice → List Int → List Int → Bool
  | [], [], [], [] => true
  | _ :: axes, .pick j :: choices, i :: is, ks => i = j && reads axes choices is ks
  | a :: axes, .sum lo hi :: choices, i :: is, ks =>
    a.Within lo hi (lo == 0) (hi == a.size) i && reads axes choices is ks
  | a :: axes, .keep lo hi _ :: choices, i :: is, k :: ks =>
    a.Kept lo hi i k && reads axes choices is ks
  | a :: axes, .group lo hi merge _ :: choices, i :: is, k :: ks =>
    a.Grouped lo hi merge (lo == 0) (hi == a.size) i k && reads axes choices is ks
  | _, _, _, _ => false

/-- Groups of one bin are the bins themselves. -/
theorem Axis.grouped_one_iff {lo hi : Nat} {i k : Int} (ordered : lo < hi) :
    a.Grouped lo hi 1 (lo == 0) (hi == a.size) i k ↔ a.Kept lo hi i k := by
  have whole : (hi - lo) ⌈/⌉ 1 = hi - lo := by
    rw [Nat.ceilDiv_eq_add_pred_div, Nat.add_sub_cancel, Nat.div_one]
  unfold Axis.Grouped Axis.Kept
  rw [whole]
  simp only [beq_iff_eq]
  omega

/-- The cells that are read are those that the routes send there. -/
theorem reads_iff_goes {entries : List Index} (chosen : Choices axes entries choices)
    (exact_groups : ∀ choice ∈ choices, choice.Exact) (fits : ∀ a ∈ axes, a.Fits) {is : List Int}
    (has : Axis.Addresses axes is) (ks : List Int) :
    reads axes choices is ks = true ↔
      Reduction.Goes axes (List.zipWith Choice.route axes choices) is ks := by
  induction chosen generalizing is ks with
  | nil =>
    cases has
    cases ks with
    | nil => exact ⟨fun _ => .nil, fun _ => rfl⟩
    | cons => exact ⟨(nomatch ·), (nomatch ·)⟩
  | @cons a _ _ axes _ choices first _ ih =>
    cases has with
    | @cons _ i _ is here has =>
    obtain ⟨fit, fits⟩ := List.forall_mem_cons.mp fits
    obtain ⟨exact_group, exact_groups⟩ := List.forall_mem_cons.mp exact_groups
    have rest := ih exact_groups fits has
    rw [List.zipWith_cons_cons]
    cases first with
    | pick _ picked =>
      rw [reads, Bool.and_eq_true, decide_eq_true_iff, rest, Reduction.goes_fold_iff rfl]
      exact and_congr_left' (Route.send_select_iff fit here picked).symm
    | sum ranges =>
      rw [reads, Bool.and_eq_true, decide_eq_true_iff, rest, Reduction.goes_fold_iff rfl]
      exact and_congr_left'
        (Route.send_sum_iff fit here (Nat.le_of_lt ranges.lt) ranges.le_size).symm
    | keep ranges cut =>
      cases ks with
      | nil => exact ⟨(nomatch ·), fun goes => absurd goes (Reduction.not_goes_keep_nil rfl)⟩
      | cons k ks =>
        rw [reads, Bool.and_eq_true, decide_eq_true_iff, rest, Reduction.goes_keep_cons_iff rfl,
          ← Axis.grouped_one_iff ranges.lt]
        exact and_congr_left' (Route.index?_regroup fit cut (ranges.exact_one fit) here).symm
    | group ranges cut =>
      cases ks with
      | nil => exact ⟨(nomatch ·), fun goes => absurd goes (Reduction.not_goes_keep_nil rfl)⟩
      | cons k ks =>
        rw [reads, Bool.and_eq_true, decide_eq_true_iff, rest, Reduction.goes_keep_cons_iff rfl]
        exact and_congr_left' (Route.index?_regroup fit cut exact_group here).symm

end Binning
