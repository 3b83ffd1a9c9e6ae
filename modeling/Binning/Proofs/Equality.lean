import Binning.Cell
import Binning.Proofs.Accumulator.Merge
import Binning.Proofs.Binary64.Differences
import Binning.Proofs.Binary64.Order
import Binning.Proofs.Storage.Equality

/-! How far equality is an equivalence. Numbers other than NaN are equal to themselves, and
their equality is symmetric and transitive; so is that of everything which is compared part
by part. Two counts are compared as integers and a count and a sum as numbers, so from a
count over a sum to another count equality is lost where both counts are rounded to the
same number. -/
namespace Binning
open Binary64

/-- Equality holds of a value and itself exactly if the value is defined, it holds in both
directions, and it goes on over a second value to a third one unless the outer two are
apart. -/
structure Equates (α : Type) [BEq α] (Defined : α → Prop) (Apart : α → α → Prop) : Prop where
  self_iff : ∀ x : α, (x == x) = true ↔ Defined x
  symm : ∀ x y : α, (x == y) = true → (y == x) = true
  trans_iff : ∀ x y z : α, (x == y) = true → (y == z) = true → ((x == z) = true ↔ ¬ Apart x z)

/-- The same of three given values. -/
structure EquatesAcross {α : Type} [BEq α] (Defined : α → Prop) (Apart : α → α → Prop)
    (x y z : α) : Prop where
  self_iff : (x == x) = true ↔ Defined x
  symm : (x == y) = true → (y == x) = true
  trans_iff : (x == y) = true → (y == z) = true → ((x == z) = true ↔ ¬ Apart x z)

/-- No two values are apart, so that the equality is transitive. -/
def NeverApart {α : Type} (_ _ : α) : Prop := False

namespace Equates
variable {α β γ : Type} [BEq α] [BEq β] [BEq γ] {D : β → Prop} {E : γ → Prop}
  {A : β → β → Prop} {B : γ → γ → Prop}

theorem across (equates : Equates β D A) (x y z : β) : EquatesAcross D A x y z :=
  ⟨equates.self_iff x, equates.symm x y, equates.trans_iff x y z⟩

/-- What is compared by two parts. -/
theorem both (first : Equates β D A) (second : Equates γ E B) {f : α → β} {g : α → γ}
    (parts : ∀ x y, (x == y) = true ↔ (f x == f y) = true ∧ (g x == g y) = true) :
    Equates α (fun x => D (f x) ∧ E (g x)) (fun x z => A (f x) (f z) ∨ B (g x) (g z)) where
  self_iff x := by rw [parts, first.self_iff, second.self_iff]
  symm x y := by
    rw [parts, parts]
    exact And.imp (first.symm _ _) (second.symm _ _)
  trans_iff x y z := by
    simp only [parts, not_or]
    rintro ⟨left, also⟩ ⟨right, besides⟩
    rw [first.trans_iff _ _ _ left right, second.trans_iff _ _ _ also besides]

/-- What is compared by one part. -/
theorem through (part : Equates β D A) {f : α → β}
    (parts : ∀ x y, (x == y) = true ↔ (f x == f y) = true) :
    Equates α (fun x => D (f x)) (fun x z => A (f x) (f z)) where
  self_iff x := by rw [parts, part.self_iff]
  symm x y := by
    rw [parts, parts]
    exact part.symm _ _
  trans_iff x y z := by
    simp only [parts]
    exact part.trans_iff _ _ _

theorem congr (equates : Equates β D A) {D' : β → Prop} {A' : β → β → Prop}
    (defined : ∀ x, D x ↔ D' x) (apart : ∀ x z, A x z ↔ A' x z) : Equates β D' A' where
  self_iff x := (equates.self_iff x).trans (defined x)
  symm := equates.symm
  trans_iff x y z left right := by rw [equates.trans_iff x y z left right, apart]

end Equates

theorem equates_of_lawful (α : Type) [BEq α] [LawfulBEq α] :
    Equates α (fun _ => True) NeverApart where
  self_iff x := iff_of_true (beq_self_eq_true x) trivial
  symm x y same := by rwa [beq_iff_eq, eq_comm, ← beq_iff_eq]
  trans_iff x y z left right := by
    rw [eq_of_beq left]
    exact iff_of_true right id

section
variable {α : Type} [BEq α] {D : α → Prop} {A : α → α → Prop}

/-- Lists are apart if they are apart at some place. -/
def ListsApart (A : α → α → Prop) (xs zs : List α) : Prop := ∃ pair ∈ xs.zip zs, A pair.1 pair.2

theorem Equates.list (equates : Equates α D A) :
    Equates (List α) (fun xs => ∀ x ∈ xs, D x) (ListsApart A) where
  self_iff xs := by
    rw [list_beq_iff_forall₂, List.forall₂_same]
    simp only [equates.self_iff]
  symm xs ys same := by
    rw [list_beq_iff_forall₂] at *
    exact (same.imp fun x y => equates.symm x y).flip
  trans_iff xs ys zs left right := by
    rw [list_beq_iff_forall₂] at *
    unfold ListsApart
    induction left generalizing zs with
    | nil =>
      cases right
      simp
    | @cons x y xs ys first left ih =>
      cases right with
      | @cons _ z _ zs second right =>
        rw [List.forall₂_cons, ih zs right, equates.trans_iff x y z first second, ← not_or,
          List.zip_cons_cons]
        simp only [List.mem_cons, exists_eq_or_imp]

/-- Lists that are apart are so at three places, of which the middle one equals both others. -/
theorem exists_of_listsApart {A : α → α → Prop} {xs ys zs : List α} (left : (xs == ys) = true)
    (right : (ys == zs) = true) (apart : ListsApart A xs zs) :
    ∃ x ∈ xs, ∃ y ∈ ys, ∃ z, (x == y) = true ∧ (y == z) = true ∧ A x z := by
  rw [list_beq_iff_forall₂] at left right
  obtain ⟨⟨x, z⟩, among, apart⟩ := apart
  induction left generalizing zs with
  | nil => cases among
  | @cons x' y xs ys first left ih =>
    cases right with
    | @cons _ z' _ zs second right =>
      rcases List.mem_cons.mp among with same | later
      · cases same
        exact ⟨x, List.mem_cons_self, y, List.mem_cons_self, z, first, second, apart⟩
      · obtain ⟨x, inside, y, within, z, equal⟩ := ih right later
        exact ⟨x, List.mem_cons_of_mem _ inside, y, List.mem_cons_of_mem _ within, z, equal⟩

end

theorem equates_float : Equates Float (·.isNaN = false) NeverApart where
  self_iff x := beq_self_iff
  symm x y := beq_symm
  trans_iff x y z left right := by
    have first := not_isNaN_of_beq left
    have second := not_isNaN_of_beq right
    have third := not_isNaN_of_beq (beq_symm right)
    rw [beq_iff_level first second] at left
    rw [beq_iff_level second third] at right
    exact iff_of_true ((beq_iff_level first third).mpr (left.trans right)) id

/-- The number nearest to a count, or to its last 64 bits, is not NaN. -/
theorem Binary64.isNaN_ofNat (n : Nat) : (ofNat n).isNaN = false := by
  have word : n % 2 ^ 64 < 2 ^ 64 := Nat.mod_lt n (by decide)
  have same : ofNat (n % 2 ^ 64) = ofNat n :=
    congrArg UInt64.toFloat (UInt64.toNat_inj.mp (Nat.mod_mod n (2 ^ 64)))
  obtain ⟨_, _, _, denotes⟩ := exists_denotes_ofNat word
  exact same ▸ denotes.defined

/-! ### Accumulators -/

theorem WeightedSum.beq_iff (s t : WeightedSum Float) : (s == t) = true ↔
    (s.value == t.value) = true ∧ (s.variance == t.variance) = true := by
  cases s
  cases t
  exact Bool.and_eq_true_iff

/-- No number of the accumulator is NaN. -/
def WeightedSum.Defined (s : WeightedSum Float) : Prop :=
  s.value.isNaN = false ∧ s.variance.isNaN = false

def Mean.Defined (m : Mean Float) : Prop :=
  m.count.isNaN = false ∧ m.value.isNaN = false ∧ m.deviation.isNaN = false

def WeightedMean.Defined (m : WeightedMean Float) : Prop :=
  m.weight.isNaN = false ∧ m.weightSquared.isNaN = false ∧ m.value.isNaN = false ∧
    m.deviation.isNaN = false

theorem equates_weightedSum : Equates (WeightedSum Float) WeightedSum.Defined NeverApart :=
  (equates_float.both equates_float WeightedSum.beq_iff).congr (fun _ => Iff.rfl)
    fun _ _ => or_self_iff

theorem equates_mean : Equates (Mean Float) Mean.Defined NeverApart := by
  have rest : Equates (Float × Float) _ _ := equates_float.both equates_float fun _ _ =>
    Bool.and_eq_true_iff
  refine (equates_float.both rest (f := Mean.count) (g := fun m => (m.value, m.deviation))
    fun m n => ?_).congr (fun _ => Iff.rfl)
    fun _ _ => (or_congr_right or_self_iff).trans or_self_iff
  rw [Mean.beq_iff]
  exact and_congr_right' Bool.and_eq_true_iff.symm

theorem equates_weightedMean : Equates (WeightedMean Float) WeightedMean.Defined NeverApart := by
  refine (equates_mean.both equates_float WeightedMean.beq_iff).congr (fun m => ?_)
    fun _ _ => or_self_iff
  unfold WeightedMean.Defined WeightedMean.toMean Mean.Defined
  tauto

/-! ### Cells -/

namespace Cell
variable {x y z : Cell} {m n : Nat}

/-- No number of the cell is NaN. -/
def Defined : Cell → Prop
  | count _ => True
  | real x => x.isNaN = false
  | weighted s => s.Defined
  | mean m => m.Defined
  | weightedMean m => m.Defined

/-- Different counts that are rounded to the same number. -/
def Apart : Cell → Cell → Prop
  | count m, count n => m ≠ n ∧ (ofNat m == ofNat n) = true
  | _, _ => False

/-- A count or a sum of weights. -/
def IsNumber : Cell → Prop
  | count _ | real _ => True
  | _ => False

theorem isNumber_of_beq (number : x.IsNumber) (same : (x == y) = true) : y.IsNumber := by
  cases x <;> cases y <;> first | contradiction | trivial

theorem value_beq_of_beq (number : x.IsNumber) (same : (x == y) = true) :
    (x.value == y.value) = true := by
  cases x <;> cases y <;> first | contradiction | skip
  case count.count m n =>
    obtain rfl : m = n := eq_of_beq same
    exact beq_self_iff.mpr (isNaN_ofNat m)
  all_goals exact same

/-- Among numbers of one value only different counts are not equal. -/
theorem beq_iff_not_apart (left : x.IsNumber) (right : z.IsNumber)
    (same : (x.value == z.value) = true) : (x == z) = true ↔ ¬ x.Apart z := by
  cases x <;> cases z <;> first | contradiction | skip
  case count.count m n =>
    change (m == n) = true ↔ ¬ (m ≠ n ∧ (ofNat m == ofNat n) = true)
    have rounded : (ofNat m == ofNat n) = true := same
    rw [beq_iff_eq, and_iff_left rounded, not_not]
  all_goals exact iff_of_true same id

theorem not_apart_of_not_isNumber (other : ¬ x.IsNumber) : ¬ x.Apart z := by
  cases x <;> first | exact absurd trivial other | exact id

/-- Counts that are apart are equal to one sum, and one of them is too large for a number to
tell it from its neighbours. -/
theorem exists_of_apart (left : (x == y) = true) (right : (y == z) = true) (apart : x.Apart z) :
    ∃ m n v, x = count m ∧ y = real v ∧ z = count n ∧ (2 ^ 53 < m ∨ 2 ^ 53 < n) := by
  cases x <;> cases z <;> first | contradiction | skip
  case count.count m n =>
    obtain ⟨different, rounded⟩ := apart
    cases y <;> first | contradiction | skip
    case count k =>
      obtain rfl : m = k := eq_of_beq left
      have equal : (m == n) = true := right
      exact absurd (eq_of_beq equal) different
    case real v =>
      refine ⟨m, n, v, rfl, rfl, rfl, ?_⟩
      by_contra small
      rw [not_or, not_lt, not_lt] at small
      have same := ((denotes_ofNat_of_le small.1).beq_iff (denotes_ofNat_of_le small.2)).mp rounded
      exact different (Int.ofNat_inj.mp same)

theorem equates : Equates Cell Defined Apart where
  self_iff x := by
    cases x with
    | count n => exact iff_of_true (beq_self_eq_true n) trivial
    | real x => exact equates_float.self_iff x
    | weighted s => exact equates_weightedSum.self_iff s
    | mean m => exact equates_mean.self_iff m
    | weightedMean m => exact equates_weightedMean.self_iff m
  symm x y same := by
    cases x <;> cases y <;> first | contradiction | skip
    case count.count m n => exact (equates_of_lawful Nat).symm m n same
    case weighted.weighted s t => exact equates_weightedSum.symm s t same
    case mean.mean m n => exact equates_mean.symm m n same
    case weightedMean.weightedMean m n => exact equates_weightedMean.symm m n same
    all_goals exact beq_symm same
  trans_iff x y z left right := by
    by_cases number : x.IsNumber
    · have middle := isNumber_of_beq number left
      have last := isNumber_of_beq middle right
      have first := value_beq_of_beq number left
      have second := value_beq_of_beq middle right
      refine beq_iff_not_apart number last ?_
      exact ((equates_float.trans_iff _ _ _ first second).mpr id)
    · refine iff_of_true ?_ (not_apart_of_not_isNumber number)
      cases x <;> cases y <;> first | contradiction | skip
      case weighted.weighted s t =>
        cases z <;> first | contradiction | skip
        exact (equates_weightedSum.trans_iff _ _ _ left right).mpr id
      case mean.mean m n =>
        cases z <;> first | contradiction | skip
        exact (equates_mean.trans_iff _ _ _ left right).mpr id
      case weightedMean.weightedMean m n =>
        cases z <;> first | contradiction | skip
        exact (equates_weightedMean.trans_iff _ _ _ left right).mpr id
      all_goals exact absurd trivial number

end Cell
end Binning
