import Binning.Law.InPlace
import Binning.Proofs.Axis.IntegerLookup
import Binning.Proofs.Binary64.Order
import Mathlib.Logic.Relation

/-! Ranges of integers after any run of growths and cuts. A range stays one of signed
words, up to its end, as long as its size is a signed word. Growth does not check that:
in front it checks the new start alone, and behind it adds the signed reading of the new
size, which from `2 ^ 63` on is negative. -/
namespace Binning
open Results Binary64

namespace Binary64
variable {x : Float}

theorem toSigned_nonpos (negative : x < 0) : toSigned x ≤ 0 := by
  cases found : parts? x with
  | none =>
    simp only [toSigned, found, if_pos negative]
    split <;> decide
  | some p =>
    have units := (lt_zero_iff_units found).mp negative
    have below : p.truncate ≤ 0 := by
      unfold Parts.units Parts.withSign at units
      unfold Parts.truncate Parts.withSign
      generalize p.significand <<< p.exponent.toNat >>> (-p.exponent).toNat = whole
      cases sign : p.negative with
      | true =>
        simp only [if_true]
        omega
      | false =>
        simp only [sign, Bool.false_eq_true, if_false] at units
        omega
    simp only [toSigned, found, Word64.clampSigned, Word64.minSigned, Word64.maxSigned]
    omega

end Binary64

/-- No number brings more bins than the limit. -/
theorem le_growthLimit_of_addedBins {x : Float} {n : Nat} (added : addedBins x = .ok n) :
    n ≤ growthLimit := by
  simp only [addedBins, throw_ite_eq_ok, pure_eq_ok] at added
  obtain ⟨within, rfl⟩ := added
  have few : toSigned x < (growthLimit + 1 : Nat) := by
    by_cases negative : x < 0
    · have := toSigned_nonpos negative
      omega
    · refine toSigned_lt (Nat.succ_pos _) (by decide) negative fun reaches => within ?_
      have next : ofNat growthLimit < ofNat (growthLimit + 1) := by decide
      exact lt_of_lt_of_le next reaches
  change (toSigned x).toNat ≤ _
  omega

namespace IntegerRange
variable {r s : IntegerRange} {x : Float} {i : Int} {front : Nat} {start stop : Int}

/-! ### In place -/

namespace InPlace

theorem run_get_bind {α : Type} (f : IntegerRange → InPlace α) (r : IntegerRange) :
    (get >>= f).run r = (f r).run r := rfl

/-- The range is written only after the last check. -/
theorem run_grow (x : Float) (r : IntegerRange) :
    (InPlace.grow x).run r =
      match r.grow x with
      | .ok (i, front, s) => .ok (i, front) s
      | .error e => .error e r := by
  unfold InPlace.grow IntegerRange.grow
  by_cases unbounded : (!isFinite x) = true
  · simp only [if_pos unbounded]
    rfl
  simp only [if_neg unbounded]
  rw [run_get_bind]
  by_cases below : floor x - ofInt r.start < 0
  · cases counted : addedBins (-(floor x - ofInt r.start)) with
    | error =>
      simp only [if_pos below, added, counted]
      rfl
    | ok n =>
      simp only [if_pos below, added, counted]
      dsimp only [bind, EStateM.bind, Except.bind, Except.mapError, EStateM.run, pure, EStateM.pure]
      by_cases signed : ¬ Word64.Signed (r.start - n)
      · simp only [if_pos signed]
        rfl
      · simp only [if_neg signed]
        rfl
  simp only [if_neg below]
  by_cases beyond : ofNat r.size ≤ floor x - ofInt r.start
  · cases counted : addedBins (floor x - ofInt r.start - ofNat r.size + 1) with
    | error =>
      simp only [if_pos beyond, added, counted]
      rfl
    | ok n =>
      simp only [if_pos beyond, added, counted]
      dsimp only [bind, EStateM.bind, Except.bind, Except.mapError, EStateM.run, pure, EStateM.pure]
      by_cases signed : ¬ Word64.Signed (r.start + Word64.signed (r.size + n))
      · simp only [if_pos signed]
        rfl
      · simp only [if_neg signed]
        rfl
  · simp only [if_neg beyond]
    rfl

theorem run_grow_eq_ok : (InPlace.grow x).run r = .ok (i, front) s ↔
    r.grow x = .ok (i, front, s) := by
  rw [run_grow]
  cases r.grow x with
  | error => exact ⟨nofun, nofun⟩
  | ok => simp only [EStateM.Result.ok.injEq, Except.ok.injEq, Prod.ext_iff, and_assoc]

theorem eq_of_run_grow_error {e : IndexError} (refused : (InPlace.grow x).run r = .error e s) :
    s = r := by
  rw [run_grow] at refused
  cases grown : r.grow x with
  | error =>
    rw [grown] at refused
    cases refused
    rfl
  | ok =>
    rw [grown] at refused
    cases refused

end InPlace

/-! ### Steps -/

/-- One step of a run: a growth, whether it succeeds or not, or a cut. -/
inductive Step (r : IntegerRange) : IntegerRange → Prop
  | grown {x : Float} {i : Int} {front : Nat} {s : IntegerRange} :
    (InPlace.grow x).run r = .ok (i, front) s → Step r s
  | refused {x : Float} {e : IndexError} {left : IntegerRange} :
    (InPlace.grow x).run r = .error e left → Step r left
  | cut {lo hi : Nat} : lo < hi → hi ≤ r.size → Step r (r.slice lo hi)

/-- The range is one of signed words, its end among them. -/
structure Represented (r : IntegerRange) : Prop where
  start : Word64.Signed r.start
  sized : 1 ≤ r.size
  size : (r.size : Int) ≤ Word64.maxSigned
  last : r.start + r.size ≤ Word64.maxSigned
  stop : r.stop = r.start + r.size
  /-- The ends between which an index is kept are in order. -/
  clamp : -1 ≤ Word64.signed r.size

theorem represented_of_bounds (start : Word64.Signed r.start) (sized : 1 ≤ r.size)
    (size : (r.size : Int) ≤ Word64.maxSigned) (last : r.start + r.size ≤ Word64.maxSigned) :
    r.Represented := by
  have word : r.size < 2 ^ 63 := by
    unfold Word64.maxSigned at size
    omega
  refine ⟨start, sized, size, last, ?_, ?_⟩
  · unfold Word64.Signed Word64.minSigned Word64.maxSigned at start
    unfold Word64.maxSigned at last
    simp only [IntegerRange.stop, Word64.wrapSigned, Int.bmod_def]
    omega
  · rw [Word64.signed_of_lt word]
    omega

namespace Represented

theorem size_lt (represented : r.Represented) : r.size < 2 ^ 63 := by
  have most := represented.size
  unfold Word64.maxSigned at most
  omega

theorem of_new (origin : Word64.Signed start) (limit : Word64.Signed stop)
    (made : new start stop = .ok r) : r.Represented := by
  obtain ⟨ordered, width, rfl⟩ := new_eq_ok made
  have size : ((stop - start).toNat : Int) = stop - start := by omega
  refine represented_of_bounds origin ?_ ?_ ?_
  · simp only
    omega
  · simp only [size]
    exact width.2
  · simp only [size]
    have most := limit.2
    omega

section
variable (represented : r.Represented)
include represented

/-- Growth keeps the end of the range if it is in front. Behind, the signed reading of the
size tells that the end is a word unless that reading is negative. -/
theorem grow_iff (grown : r.grow x = .ok (i, front, s)) : s.Represented ↔ s.size < 2 ^ 63 := by
  refine ⟨size_lt, fun word => ?_⟩
  have size : (s.size : Int) ≤ Word64.maxSigned := by
    unfold Word64.maxSigned
    omega
  have sized := represented.sized
  have last := represented.last
  cases growsTo_of_grow grown with
  | front _ _ signed =>
    refine represented_of_bounds signed ?_ size ?_
    · simp only
      omega
    · simp only
      omega
  | behind _ _ _ signed =>
    rw [Word64.signed_of_lt word] at signed
    refine represented_of_bounds represented.start ?_ size signed.2
    simp only
    omega
  | within => exact represented

theorem slice {lo hi : Nat} (some_bin : lo < hi) (inside : hi ≤ r.size) :
    (r.slice lo hi).Represented := by
  have word := represented.size_lt
  obtain ⟨low, _⟩ := represented.start
  have last := represented.last
  have offset : Word64.wrapSigned (r.start + Word64.signed lo) = r.start + lo := by
    unfold Word64.minSigned at low
    unfold Word64.maxSigned at last
    rw [Word64.signed_of_lt (by omega), Word64.wrapSigned, Int.bmod_def]
    omega
  unfold IntegerRange.slice
  rw [offset]
  have size := represented.size
  refine represented_of_bounds ⟨?_, ?_⟩ ?_ ?_ ?_
  all_goals
    simp only
    omega

theorem step_iff (step : r.Step s) : s.Represented ↔ s.size < 2 ^ 63 := by
  refine ⟨size_lt, fun word => ?_⟩
  cases step with
  | grown grown => exact (represented.grow_iff (InPlace.run_grow_eq_ok.mp grown)).mpr word
  | refused refused =>
    obtain rfl := InPlace.eq_of_run_grow_error refused
    exact represented
  | cut some_bin inside => exact represented.slice some_bin inside

end
end Represented

theorem Step.size_le (step : r.Step s) : s.size ≤ r.size + growthLimit := by
  cases step with
  | grown grown =>
    cases growsTo_of_grow (InPlace.run_grow_eq_ok.mp grown) with
    | front _ counted | behind _ _ counted =>
      exact Nat.add_le_add_left (le_growthLimit_of_addedBins counted) r.size
    | within => exact Nat.le_add_right ..
  | refused refused =>
    obtain rfl := InPlace.eq_of_run_grow_error refused
    exact Nat.le_add_right ..
  | cut some_bin inside =>
    simp only [slice]
    omega

/-! ### Runs -/

/-- The ranges that steps lead to from one that can be made, through sizes that are
signed words. -/
inductive Reached : IntegerRange → Prop
  | made {start stop : Int} {r : IntegerRange} : Word64.Signed start → Word64.Signed stop →
    new start stop = .ok r → Reached r
  | step {r s : IntegerRange} : Reached r → Step r s → s.size < 2 ^ 63 → Reached s

theorem Reached.represented (reached : Reached r) : r.Represented := by
  induction reached with
  | made origin limit made => exact .of_new origin limit made
  | step _ step word represented => exact (represented.step_iff step).mpr word

/-- Each range that is reached is one of signed words. The next step leads to such a one if
and only if it leaves a size that is a signed word, which only growth from less than its
limit below `2 ^ 63` can fail to do. A growth that is refused leaves the range as it is. -/
theorem represented_of_reached (reached : Reached r) :
    r.Represented ∧
      (∀ s, r.Step s → (s.Represented ↔ s.size < 2 ^ 63)) ∧
      (∀ s, r.Step s → r.size + growthLimit < 2 ^ 63 → s.Represented) ∧
      ∀ x e left, (InPlace.grow x).run r = .error e left → left = r := by
  have represented := reached.represented
  refine ⟨represented, fun s step => represented.step_iff step, fun s step room => ?_,
    fun x e left => InPlace.eq_of_run_grow_error⟩
  have few := step.size_le
  exact (represented.step_iff step).mpr (by omega)

theorem represented_at_limit :
    let r : IntegerRange := ⟨-1, 2 ^ 63 - 1⟩
    Reached r ∧ r.Represented ∧
      (∀ s, r.Step s → (s.Represented ↔ s.size < 2 ^ 63)) ∧
      (∀ s, r.Step s → r.size + growthLimit < 2 ^ 63 → s.Represented) ∧
      ∀ x e left, (InPlace.grow x).run r = .error e left → left = r := by
  intro r
  have made : new 0 (2 ^ 63 - 2) = .ok ⟨0, 2 ^ 63 - 2⟩ := rfl
  have grown : (InPlace.grow (-1)).run ⟨0, 2 ^ 63 - 2⟩ = .ok (0, 1) r := rfl
  have reached : Reached r := .step (.made (by decide) (by decide) made) (.grown grown) (by decide)
  exact ⟨reached, represented_of_reached reached⟩

/-- The widest range that starts at zero grows by a bin in front. -/
theorem not_represented_widest :
    ¬ ∀ (start stop : Int) (r s : IntegerRange), Word64.Signed start → Word64.Signed stop →
      new start stop = .ok r → Relation.ReflTransGen Step r s → s.Represented := by
  intro represented
  have grown : (InPlace.grow (-1)).run ⟨0, 2 ^ 63 - 1⟩ = .ok (0, 1) ⟨-1, 2 ^ 63⟩ := rfl
  have kept := represented 0 (2 ^ 63 - 1) _ _ (by decide) (by decide) rfl (.single (.grown grown))
  exact absurd kept.size (by decide)

end IntegerRange
end Binning
