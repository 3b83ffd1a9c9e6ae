import Binning.Proofs.Axis.Equality
import Binning.Proofs.Equality
import Binning.Proofs.Histogram.Selection

/-! Equality of histograms, which is that of their axes, their storage kinds and their cells.
It is lost from one histogram over a second to a third only where a sum of the second stands
between different counts of the others, which takes unlimited counters of which some have
turned into sums. -/
namespace Binning
open Binary64

/-! ### Axes -/

namespace Transform

/-- The power is a number. -/
def Defined : Transform → Prop
  | pow p => p.isNaN = false
  | _ => True

theorem equates : Equates Transform Defined NeverApart where
  self_iff t := by
    cases t with
    | pow p => exact equates_float.self_iff p
    | id | log | sqrt => exact iff_of_true rfl trivial
  symm t u same := by
    cases t <;> cases u <;> first | contradiction | rfl | skip
    case pow.pow p q => exact equates_float.symm p q same
  trans_iff t u v left right := by
    cases t <;> cases u <;> first | contradiction | skip
    case pow.pow p q =>
      cases v <;> first | contradiction | skip
      case pow r => exact equates_float.trans_iff p q r left right
    all_goals exact iff_of_true right not_false

end Transform

namespace Law

/-- No number of the law is NaN. -/
def Defined : Law → Prop
  | regular r => (r.grid.first.isNaN = false ∧ r.grid.span.isNaN = false) ∧ r.transform.Defined
  | edges e => ∀ x ∈ e.list, x.isNaN = false
  | integer _ | category _ => True

theorem equates_grid :
    Equates (Grid Float) (fun g => g.first.isNaN = false ∧ g.span.isNaN = false) NeverApart := by
  have ends : Equates (Float × Float) _ _ := equates_float.both equates_float fun _ _ =>
    Bool.and_eq_true_iff
  refine ((equates_of_lawful Nat).both ends (f := Grid.size) (g := fun g => (g.first, g.span))
    fun g h => ?_).congr (fun _ => iff_of_eq (true_and _)) fun _ _ =>
      (or_congr_right or_self_iff).trans or_self_iff
  cases g
  cases h
  exact Bool.and_eq_true_iff

theorem equates_regular : Equates Regular (fun r => Defined (.regular r)) NeverApart := by
  refine (equates_grid.both Transform.equates (f := Regular.grid) (g := Regular.transform)
    fun r s => ?_).congr (fun _ => Iff.rfl) fun _ _ => or_self_iff
  cases r
  cases s
  exact Bool.and_eq_true_iff

theorem not_listsApart_never {α : Type} (xs zs : List α) : ¬ ListsApart NeverApart xs zs := by
  rintro ⟨_, _, apart⟩
  exact apart

theorem equates_edges : Equates Edges (fun e => Defined (.edges e)) NeverApart := by
  refine (equates_float.list.through (f := Edges.list) fun d e => ?_).congr (fun _ => Iff.rfl)
    fun d e => iff_of_false (not_listsApart_never _ _) id
  cases d
  cases e
  exact Iff.rfl

theorem equates : Equates Law Defined NeverApart where
  self_iff l := by
    cases l with
    | regular r => exact equates_regular.self_iff r
    | edges e => exact equates_edges.self_iff e
    | integer r => exact (equates_of_lawful IntegerRange).self_iff r
    | category c => exact (equates_of_lawful Category).self_iff c
  symm l m same := by
    cases l <;> cases m <;> first | contradiction | skip
    case regular.regular r s => exact equates_regular.symm r s same
    case edges.edges d e => exact equates_edges.symm d e same
    case integer.integer r s => exact (equates_of_lawful IntegerRange).symm r s same
    case category.category c d => exact (equates_of_lawful Category).symm c d same
  trans_iff l m n left right := by
    cases l <;> cases m <;> first | contradiction | skip
    all_goals cases n <;> first | contradiction | skip
    case regular.regular.regular => exact equates_regular.trans_iff _ _ _ left right
    case edges.edges.edges => exact equates_edges.trans_iff _ _ _ left right
    case integer.integer.integer =>
      exact (equates_of_lawful IntegerRange).trans_iff _ _ _ left right
    case category.category.category =>
      exact (equates_of_lawful Category).trans_iff _ _ _ left right

end Law

theorem ClassedAxis.equates :
    Equates ClassedAxis (fun a => a.axis.law.Defined) NeverApart := by
  have rest : Equates (Options × Option String) _ _ :=
    (equates_of_lawful Options).both (equates_of_lawful (Option String)) fun _ _ =>
      Bool.and_eq_true_iff
  have bare : Equates Axis _ _ := Law.equates.both rest (f := Axis.law)
    (g := fun a => (a.options, a.label)) fun a b => by
      cases a
      cases b
      exact Bool.and_eq_true_iff
  refine (bare.through (f := ClassedAxis.axis) fun _ _ => Iff.rfl).congr
    (fun _ => by simp only [and_self, and_true]) fun _ _ =>
      (or_congr_right or_self_iff).trans or_self_iff

/-! ### Contents -/

theorem Bins.equates : Equates Bins (fun b => ∀ x ∈ b.cells, x.Defined)
    (fun b c => ListsApart Cell.Apart b.cells c.cells) := by
  refine ((equates_of_lawful StorageKind).both Cell.equates.list (f := Bins.kind)
    (g := Bins.cells) fun b c => Bool.and_eq_true_iff).congr (fun _ => iff_of_eq (true_and _))
    fun _ _ => iff_of_eq (false_or _)

/-- Counts and sums are held by bins of one kind only in unlimited counters. -/
theorem Bins.kind_eq_unlimited {b c : Bins} {n : Nat} {v : Float} (same : b.kind = c.kind)
    (counted : Cell.count n ∈ b.cells) (summed : Cell.real v ∈ c.cells) : c.kind = .unlimited := by
  obtain ⟨i, _, found⟩ := List.mem_map.mp counted
  obtain ⟨j, _, holds⟩ := List.mem_map.mp summed
  cases c <;> cases b <;> first | contradiction | rfl

namespace Histogram

/-- No number of the axes or of the cells is NaN. -/
def Defined (h : Histogram) : Prop :=
  (∀ a ∈ h.axes, a.axis.law.Defined) ∧ ∀ x ∈ h.bins.cells, x.Defined

/-- Some slot has different counts that are rounded to the same number. -/
def Apart (g k : Histogram) : Prop := ListsApart Cell.Apart g.bins.cells k.bins.cells

theorem beq_iff {g h : Histogram} : (g == h) = true ↔
    (g.axes == h.axes) = true ∧ (g.storage.kind == h.storage.kind) = true ∧
      (g.bins == h.bins) = true := by
  change (_ && _ && _) = true ↔ _
  rw [Bool.and_eq_true, Bool.and_eq_true, and_assoc]
  rfl

theorem equates : Equates Histogram Defined Apart := by
  have contents : Equates (StorageKind × Bins) _ _ :=
    (equates_of_lawful StorageKind).both Bins.equates fun _ _ => Bool.and_eq_true_iff
  refine (ClassedAxis.equates.list.both contents (f := Histogram.axes)
    (g := fun h => (h.storage.kind, h.bins)) fun g h => ?_).congr (fun h => ?_) fun g k => ?_
  · rw [beq_iff]
    exact and_congr_right' Bool.and_eq_true_iff.symm
  · exact and_congr_right' (iff_of_eq (true_and _))
  · simp only [Law.not_listsApart_never, NeverApart, false_or]
    rfl

/-- Equality of cells and of histograms that have no NaN is an equivalence but for counts
that are rounded to the same number, with that number between them. -/
theorem equates_up_to_rounding (x y z : Cell) (g h k : Histogram) :
    EquatesAcross Cell.Defined Cell.Apart x y z ∧
      ((x == y) = true → (y == z) = true → x.Apart z →
        ∃ m n v, x = .count m ∧ y = .real v ∧ z = .count n ∧ (2 ^ 53 < m ∨ 2 ^ 53 < n)) ∧
      EquatesAcross Defined Apart g h k ∧
      ((g == h) = true → (h == k) = true → g.Apart k → h.bins.kind = .unlimited) := by
  refine ⟨Cell.equates.across x y z, Cell.exists_of_apart, equates.across g h k,
    fun left right apart => ?_⟩
  obtain ⟨_, _, first⟩ := beq_iff.mp left
  obtain ⟨_, _, second⟩ := beq_iff.mp right
  obtain ⟨kinds, cells⟩ := Bool.and_eq_true_iff.mp first
  obtain ⟨_, others⟩ := Bool.and_eq_true_iff.mp second
  obtain ⟨x, inside, y, within, z, equal, also, different⟩ :=
    exists_of_listsApart cells others apart
  obtain ⟨m, n, v, rfl, rfl, rfl, _⟩ := Cell.exists_of_apart equal also different
  exact Bins.kind_eq_unlimited (eq_of_beq kinds) inside within

/-! ### Counts between numbers -/

/-- Unlimited counters after an entry at the integers 0 and 0. -/
def entered (h : Histogram) (weight : Option Float) : Histogram :=
  (h.fill .builtin [.int 0, .int 0] weight).state

/-- A count of as many entries as numbers can tell apart. -/
def roundedCount : Histogram := unlimitedPair.entered (some 9007199254740992)

/-- The same count as a sum. -/
def roundedSum : Histogram := (roundedCount.scale 1).state

/-- One entry more. -/
def nextCount : Histogram := roundedCount.entered none

theorem Reachable.entered {h : Histogram} (reachable : h.Reachable) (weight : Option Float)
    (allocated : (h.entered weight).Allocated) : (h.entered weight).Reachable :=
  .fill reachable Registry.builtin_keepsShape allocated

theorem reachable_roundedCount : roundedCount.Reachable :=
  reachable_unlimitedPair.entered _ (by decide)

/-- The next count is equal to the sum as well, but not to the count before it. -/
theorem not_transitive_next_count :
    (¬ ∀ x y z : Cell, x.Defined → y.Defined → z.Defined → (x == y) = true → (y == z) = true →
      (x == z) = true) ∧
    ¬ ∀ g h k : Histogram, g.Reachable → h.Reachable → k.Reachable → g.Defined → h.Defined →
      k.Defined → (g == h) = true → (h == k) = true → (g == k) = true := by
  constructor
  · intro transitive
    have equal := transitive (.count (2 ^ 53)) (.real 9007199254740992) (.count (2 ^ 53 + 1))
      trivial rfl trivial rfl rfl
    contradiction
  · intro transitive
    have first : (roundedCount == roundedSum) = true := by decide +kernel
    have second : (roundedSum == nextCount) = true := by decide +kernel
    have self (h : Histogram) (same : (h == h) = true) : h.Defined := (equates.self_iff h).mp same
    have last := reachable_roundedCount.entered none (by decide)
    have equal := transitive roundedCount roundedSum nextCount reachable_roundedCount
      (.scale 1 reachable_roundedCount) last (self _ rfl) (self _ (by decide +kernel)) (self _ rfl)
      first second
    contradiction

end Histogram
end Binning
