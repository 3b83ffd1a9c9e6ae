import Binning.Proofs.Results
import Binning.Proofs.Storage.Counts

/-! Entries in whole counts. An entry adds its weight, or one, to the count of its
own slot, so gathering the contents after it is adding it where its slot is sent. -/
namespace Binning

/-- What an entry adds to a count. -/
def amount (weight : Option Float) : Nat := Binary64.toUnsigned (weight.getD 1)

@[simp] theorem amount_none : amount none = 1 := rfl

@[simp] theorem StorageKind.enter_count (kind : StorageKind) (weight sample : Option Float)
    (n : Nat) : kind.enter weight sample (.count n) = .count (kind.hold (n + amount weight)) := rfl

/-- Whole counts take no sample, and no weight but whole numbers from zero on. -/
theorem StorageKind.checkEntry_eq_ok {kind : StorageKind} (integral : kind.isIntegral = true)
    {weight sample : Option Float} : kind.checkEntry weight sample = .ok () ↔
      sample = none ∧ ∀ w ∈ weight, 0 ≤ w ∧ Binary64.isWhole w = true := by
  cases sample with
  | some x => cases kind <;> first | contradiction | exact ⟨(nomatch ·), (nomatch ·.1)⟩
  | none =>
    cases weight with
    | none => cases kind <;> first | contradiction | exact ⟨fun _ => ⟨rfl, nofun⟩, fun _ => rfl⟩
    | some w =>
      have checked : kind.checkEntry (some w) none = .ok () ↔
          ¬ (!(decide (0 ≤ w) && Binary64.isWhole w)) = true := by
        cases kind <;> first | contradiction | skip
        all_goals exact Results.throw_ite_eq_ok.trans (and_iff_left rfl)
      simp [checked]

theorem StorageKind.checkEntry_none {kind : StorageKind} (integral : kind.isIntegral = true) :
    kind.checkEntry none none = .ok () :=
  (checkEntry_eq_ok integral).mpr ⟨rfl, nofun⟩

namespace Bins
variable {b : Bins} (integral : b.kind.isIntegral = true)
include integral

theorem tally_record (j : Nat) (weight sample : Option Float) (i : Nat) :
    (b.record j weight sample).tally i =
      if i = j ∧ j < b.length then b.kind.hold (b.tally i + amount weight) else b.tally i := by
  apply tally_of_get
  rw [get_record j (not_unlimited_of_isIntegral integral), get_eq_count integral,
    StorageKind.enter_count]
  split <;> rfl

theorem tally_gather_record {j : Nat} (inside : j < b.length) (weight sample : Option Float)
    {length i : Nat} (below : i < length) (target : Nat → Option Nat) :
    ((b.record j weight sample).gather length target).tally i =
      if target j = some i then b.kind.hold ((b.gather length target).tally i + amount weight)
      else (b.gather length target).tally i := by
  rw [tally_gather (by simpa) below, tally_gather integral below, kind_record, length_record]
  have each (p : Nat) : b.kind.hold
      (if target p = some i then (b.record j weight sample).tally p else 0) =
        b.kind.hold ((if target p = some i then b.tally p else 0) +
          if p = j then if target j = some i then amount weight else 0 else 0) := by
    rw [tally_record integral]
    by_cases here : p = j
    · subst here
      split <;> simp [inside, StorageKind.hold_hold]
    · simp [here]
  rw [← StorageKind.hold_sum]
  simp only [each]
  rw [StorageKind.hold_sum, Finset.sum_add_distrib, Finset.sum_ite_eq' _ j,
    if_pos (Finset.mem_range.mpr inside), StorageKind.hold_hold_add]
  split <;> rfl

end Bins
end Binning
