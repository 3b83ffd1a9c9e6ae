import Binning.Proofs.Storage.Equality
import Binning.Proofs.Storage.Widening

/-! Slots that have their target to themselves. A gather leaves such slots as they were, so
one that sends every slot to itself leaves bins that compare equal, as long as no number
among them is NaN. Unlimited counters may start again at the narrowest width, for their
counts are words. -/
namespace Binning
open Binary64

/-! ### Counts are words -/

namespace Unlimited
variable {u : Unlimited}

def Counted (u : Unlimited) : Prop := ∀ i, (u.get i).tally < 2 ^ 64

theorem counted_empty (n : Nat) : (empty n).Counted := by
  intro i
  have zero : (empty n).get i = .count 0 := Bins.get_empty .unlimited n i
  rw [zero]
  exact Nat.two_pow_pos 64

theorem counted_reals (slots : Array Float) : (reals slots).Counted := fun _ => Nat.two_pow_pos 64

theorem Counted.addCount (counted : u.Counted) (i n : Nat) : (u.addCount i n).Counted := by
  cases u with
  | reals => exact counted_reals _
  | counts width slots =>
    simp only [Unlimited.addCount]
    split
    · rename_i wider found
      have fits : slots.getD i 0 + n < 2 ^ 64 := (width.isSome_fitting? _).mp (found ▸ rfl)
      intro k
      change (slots.modify i (· + n)).getD k 0 < 2 ^ 64
      rw [getD_modify]
      split
      · rename_i here
        exact here.1 ▸ fits
      · exact counted k
    · exact counted_reals _

theorem Counted.add (counted : u.Counted) (i : Nat) (weight : Float) :
    (u.add i weight).Counted := by
  unfold Unlimited.add
  split
  · split
    · exact counted.addCount i _
    · exact counted_reals _
  · exact counted_reals _

theorem Counted.addFrom (counted : u.Counted) (i : Nat) (other : Unlimited) (j : Nat) :
    (u.addFrom i other j).Counted := by
  cases other with
  | counts => exact counted.addCount i _
  | reals => exact counted_reals _

end Unlimited

namespace Bins
variable {b c : Bins} {target : Nat → Option Nat}

/-- The counts that can widen are words. -/
def Counted : Bins → Prop
  | unlimited u => u.Counted
  | _ => True

theorem counted_empty (kind : StorageKind) (n : Nat) : (empty kind n).Counted := by
  cases kind with
  | unlimited => exact Unlimited.counted_empty n
  | int | double | atomicInt | weight | mean | weightedMean => trivial

theorem Counted.record (counted : b.Counted) (i : Nat) (weight sample : Option Float) :
    (b.record i weight sample).Counted := by
  cases b with
  | unlimited => exact Unlimited.Counted.add counted i _
  | int | double | atomicInt | weight | mean | weightedMean => trivial

theorem Counted.addFrom (counted : b.Counted) (i : Nat) (other : Bins) (j : Nat) :
    (b.addFrom i other j).Counted := by
  cases b with
  | unlimited u =>
    cases other with
    | unlimited v => exact Unlimited.Counted.addFrom counted i v j
    | int | double | atomicInt | weight | mean | weightedMean => exact counted
  | int | double | atomicInt | weight | mean | weightedMean => cases other <;> trivial

theorem counted_gather (b : Bins) (length : Nat) (target : Nat → Option Nat) :
    (b.gather length target).Counted :=
  foldl_send_of_addFrom (fun _ i j counted => counted.addFrom i b j) (counted_empty ..) _

theorem Counted.addAll (counted : b.Counted) (other : Bins) : (b.addAll other).Counted :=
  addAll_of_addFrom (fun _ i j counted => counted.addFrom i other j) counted

theorem counted_of_scale {factor : Float} (done : b.scale factor = .ok c) : c.Counted := by
  cases b with
  | unlimited =>
    cases done
    exact Unlimited.counted_reals _
  | int | atomicInt => contradiction
  | double | weight | mean | weightedMean =>
    cases done
    trivial

theorem Counted.tally_lt (counted : b.Counted) (free : b.kind = .unlimited) (i : Nat) :
    b.tally i < 2 ^ 64 := by
  cases b <;> cases free
  exact counted i

/-! ### Slots that have their target to themselves -/

section
variable (words : b.Words) (counted : b.Counted) (unsampled : b.kind.takesSample = false)
include words counted unsampled

/-- A slot that has its target to itself comes there as it was, up to the sign of a zero. -/
theorem alike_gather_of_apart {length : Nat}
    (lands : ∀ p < b.length, ∀ k, target p = some k → k < length)
    (apart : ∀ p < b.length, ∀ q < b.length, ∀ k, target p = some k → target q = some k → q = p)
    {p i : Nat} (below : p < b.length) (sent : target p = some i) :
    ((b.gather length target).get i).Alike (b.get p) := by
  have single {q k : Nat} (inside : q < b.length) (here : target q = some k) :
      sources target b.length k = [q] :=
    sources_eq_singleton inside here fun other before there => apart q inside other before k here there
  by_cases free : b.kind = .unlimited
  · cases turned : b.turned with
    | false =>
      have fits : ∀ k < length, b.total (sources target b.length k) < 2 ^ 64 := by
        intro k _
        cases listed : sources target b.length k with
        | nil => exact Nat.two_pow_pos 64
        | cons q rest =>
          obtain ⟨inside, here⟩ := mem_sources.mp (listed ▸ List.mem_cons_self)
          rw [← listed, single inside here]
          exact counted.tally_lt free q
      rw [gather_counts free turned lands fits (lands p below i sent), single below sent,
        get_eq_count_tally free turned]
      exact .refl _
    | true =>
      -- the new counters turn with the first slot that is sent anywhere
      have real : (b.get p).isReal = true := isReal_get free p ▸ turned
      have turns : b.Turns (sources target b.length) p := turns_sources.mpr ⟨below, i, sent, .inl real⟩
      obtain ⟨turn, turning, cells⟩ := get_gather lands
      have cell := cells i (lands p below i sent)
      cases turn with
      | none => exact absurd turns (turning free p)
      | some turn =>
        have started : turn ≤ p := Nat.le_of_not_lt fun past => turning.2.2 p past turns
        have sum : b.mergedFrom turn [p] = .real (ofNat 0 + (b.get p).value) := by
          simp [mergedFrom, total, started, Nat.not_lt.mpr started]
        rw [cell, single below sent, mergedWith, sum]
        cases found : b.get p with
        | real x => exact alike_zero_add x
        | count | weighted | mean | weightedMean =>
          rw [found] at real
          contradiction
  · have plain : b.kind.isPlain = true := by
      cases kind : b.kind <;> simp_all [StorageKind.isPlain, StorageKind.takesSample]
    rw [get_gather_of_apart free (lands p below i sent), single below sent, merged_eq_merge free]
    exact words.alike_merge_zero plain p

theorem alike_gather_self (stays : ∀ p < b.length, target p = some p) {i : Nat}
    (below : i < b.length) : ((b.gather b.length target).get i).Alike (b.get i) := by
  refine alike_gather_of_apart words counted unsampled (fun p inside k sent => ?_)
    (fun p inside q before k sent same => ?_) below (stays i below)
  · rw [stays p inside] at sent
    exact Option.some.inj sent ▸ inside
  · rw [stays p inside] at sent
    rw [stays q before] at same
    exact (Option.some.inj same).trans (Option.some.inj sent).symm

end

end Bins
end Binning
