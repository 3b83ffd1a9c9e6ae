import Binning.Proofs.Storage.Cells

/-! Merging into unlimited counters. While all of them are counts and the total
of a slot stays a word, a merge adds to that slot alone. Any other merge turns
all slots into sums of weights, and they stay that. -/
namespace Binning

namespace Cell

/-- The number of entries in a count. -/
def tally : Cell → Nat
  | count n => n
  | _ => 0

def isReal : Cell → Bool
  | real _ => true
  | _ => false

end Cell

theorem Width.isSome_fitting? (w : Width) (n : Nat) :
    (w.fitting? n).isSome = true ↔ n < 2 ^ 64 := by
  have widest : sixtyFour ∈ w.upward := by cases w <;> decide
  have narrower : ∀ v : Width, 1 <<< v.bits ≤ 2 ^ 64 := by rintro ⟨⟩ <;> decide
  simp only [fitting?, List.find?_isSome, decide_eq_true_eq]
  constructor
  · rintro ⟨v, _, fits⟩
    exact Nat.lt_of_lt_of_le fits (narrower v)
  · intro fits
    exact ⟨sixtyFour, widest, fits⟩

namespace Unlimited

def turned : Unlimited → Bool
  | counts _ _ => false
  | reals _ => true

@[simp] theorem isReal_get (u : Unlimited) (i : Nat) : (u.get i).isReal = u.turned := by
  cases u <;> rfl

theorem getD_toReals (u : Unlimited) {k : Nat} (below : k < u.length) :
    u.toReals.getD k 0 = (u.get k).value := by
  cases u with
  | counts width slots =>
    have inside : k < slots.size := below
    simp [toReals, get, Cell.value, Array.getD_eq_getD_getElem?, inside]
  | reals => rfl

/-- Adding a weight turns every slot. -/
theorem get_addReal (u : Unlimited) (i : Nat) (x : Float) {k : Nat} (below : k < u.length) :
    (u.addReal i x).get k =
      .real (if k = i then (u.get k).value + x else (u.get k).value) := by
  have modified := getD_modify u.toReals (· + x) i k 0
  rw [getD_toReals u below, size_toReals] at modified
  rw [addReal, get, modified]
  by_cases here : k = i
  · rw [if_pos here, if_pos ⟨here, here ▸ below⟩]
  · rw [if_neg here, if_neg fun both => here both.1]

theorem addCount_of_fits {u : Unlimited} {i n : Nat} (whole : u.turned = false)
    (below : i < u.length) (fits : (u.get i).tally + n < 2 ^ 64) :
    (u.addCount i n).turned = false ∧
      ∀ k, (u.addCount i n).get k = .count ((u.get k).tally + if k = i then n else 0) := by
  cases u with
  | reals => contradiction
  | counts width slots =>
    obtain ⟨wider, found⟩ := Option.isSome_iff_exists.mp ((width.isSome_fitting? _).mpr fits)
    have widened : (counts width slots).addCount i n = counts wider (slots.modify i (· + n)) := by
      simp only [get, Cell.tally] at found
      simp only [addCount, found]
    rw [widened]
    refine ⟨rfl, fun k => congrArg Cell.count ((getD_modify ..).trans ?_)⟩
    by_cases here : k = i
    · rw [if_pos here, if_pos ⟨here, below⟩]
      rfl
    · rw [if_neg here, if_neg fun both => here both.1]
      rfl

theorem addCount_of_spills {u : Unlimited} {i n : Nat}
    (spills : u.turned = true ∨ 2 ^ 64 ≤ (u.get i).tally + n) :
    u.addCount i n = u.addReal i (Binary64.ofNat n) := by
  cases u with
  | reals => rfl
  | counts width slots =>
    have large : 2 ^ 64 ≤ slots.getD i 0 + n := by
      rcases spills with turned | large
      · contradiction
      · exact large
    have none_fits : width.fitting? (slots.getD i 0 + n) = none := by
      rw [← Option.not_isSome_iff_eq_none, width.isSome_fitting?]
      exact Nat.not_lt.mpr large
    simp only [addCount, none_fits]

variable {u other : Unlimited} {i j : Nat}

/-- Counts whose total is a word stay counts. -/
theorem addFrom_of_fits (whole : u.turned = false) (others : other.turned = false)
    (below : i < u.length) (fits : (u.get i).tally + (other.get j).tally < 2 ^ 64) :
    (u.addFrom i other j).turned = false ∧ ∀ k,
      (u.addFrom i other j).get k =
        .count ((u.get k).tally + if k = i then (other.get j).tally else 0) := by
  cases other with
  | reals => contradiction
  | counts => exact addCount_of_fits whole below fits

/-- Otherwise every slot becomes a sum of weights. -/
theorem addFrom_of_spills
    (spills : u.turned = true ∨ other.turned = true ∨
      2 ^ 64 ≤ (u.get i).tally + (other.get j).tally) :
    (u.addFrom i other j).turned = true ∧ ∀ k < u.length,
      (u.addFrom i other j).get k =
        .real (if k = i then (u.get k).value + (other.get j).value else (u.get k).value) := by
  cases other with
  | reals => exact ⟨rfl, fun k below => get_addReal u i _ below⟩
  | counts width slots =>
    have large : u.turned = true ∨ 2 ^ 64 ≤ (u.get i).tally + slots.getD j 0 := by
      rcases spills with turned | turned | large
      · exact .inl turned
      · contradiction
      · exact .inr large
    have same : u.addFrom i (counts width slots) j =
        u.addReal i (Binary64.ofNat (slots.getD j 0)) := addCount_of_spills large
    rw [same]
    exact ⟨rfl, fun k below => get_addReal u i _ below⟩

end Unlimited
end Binning
