import Binning.Proofs.Storage.Gather
import Mathlib.Algebra.BigOperators.Group.Finset.Sigma
import Mathlib.Algebra.Order.BigOperators.Group.Finset

/-! Counts of one word, read as the number of entries that they stand for. A
counter that stops at the largest word or starts again behind it may do so after
every addition or once at the end, so neither the order nor the grouping of the
additions matters. -/
namespace Binning

namespace StorageKind
variable (kind : StorageKind)

/-- What a counter of the kind holds after `n` entries. -/
def hold (n : Nat) : Nat :=
  if kind = atomicInt then n % 2 ^ 64 else min Word64.maxUnsigned n

theorem hold_of_lt {n : Nat} (small : n < 2 ^ 64) : kind.hold n = n := by
  unfold hold Word64.maxUnsigned
  split <;> omega

theorem hold_hold_add (m n : Nat) : kind.hold (kind.hold m + n) = kind.hold (m + n) := by
  unfold hold Word64.maxUnsigned
  split <;> omega

theorem hold_add_hold (m n : Nat) : kind.hold (m + kind.hold n) = kind.hold (m + n) := by
  rw [Nat.add_comm, hold_hold_add, Nat.add_comm]

theorem hold_hold (n : Nat) : kind.hold (kind.hold n) = kind.hold n := hold_hold_add kind n 0

theorem hold_sum {ι : Type} (s : Finset ι) (f : ι → Nat) :
    kind.hold (∑ i ∈ s, kind.hold (f i)) = kind.hold (∑ i ∈ s, f i) := by
  classical
  induction s using Finset.induction_on with
  | empty => rfl
  | insert i s fresh ih =>
    rw [Finset.sum_insert fresh, Finset.sum_insert fresh, hold_hold_add, ← hold_add_hold, ih,
      hold_add_hold]

@[simp] theorem merge_count (m n : Nat) :
    kind.merge (.count m) (.count n) = .count (kind.hold (m + n)) := rfl

end StorageKind

namespace Bins
variable {b c d : Bins} {target : Nat → Option Nat}

/-- The number of entries in a count. -/
def tally (b : Bins) (i : Nat) : Nat := (b.get i).tally

theorem get_eq_count (integral : b.kind.isIntegral = true) (i : Nat) :
    b.get i = .count (b.tally i) := by
  cases b with
  | int | atomicInt => rfl
  | double | unlimited | weight | mean | weightedMean => contradiction

theorem tally_of_get {i n : Nat} (found : b.get i = .count n) : b.tally i = n :=
  congrArg Cell.tally found

/-- Bins of whole counts are told apart by their counts. -/
theorem eq_of_tally (integral : b.kind.isIntegral = true) (kind : c.kind = b.kind)
    (length : c.length = b.length) (tallies : ∀ i < b.length, b.tally i = c.tally i) : b = c := by
  cases b <;> cases c <;> first | contradiction | skip
  all_goals
    refine congrArg _ (Array.ext length.symm fun i below other => ?_)
    simpa [tally, get, Cell.tally, Array.getD, show i < _ from below, show i < _ from other]
      using tallies i below

/-! ### Gathering -/

theorem total_sources (b : Bins) (target : Nat → Option Nat) (n i : Nat) :
    b.total (sources target n i) =
      ∑ p ∈ Finset.range n, if target p = some i then b.tally p else 0 := by
  induction n with
  | zero => rfl
  | succ n ih =>
    rw [Finset.sum_range_succ, ← ih, sources_succ, total_append]
    split <;> rfl

theorem foldl_merge_get (integral : b.kind.isIntegral = true) (js : List Nat) (n : Nat) :
    (js.map b.get).foldl b.kind.merge (.count (b.kind.hold n)) =
      .count (b.kind.hold (n + b.total js)) := by
  induction js generalizing n with
  | nil => rfl
  | cons j js ih =>
    rw [List.map_cons, List.foldl_cons, get_eq_count integral, StorageKind.merge_count,
      StorageKind.hold_hold_add, ih, Nat.add_assoc]
    rfl

theorem merged_eq_hold (integral : b.kind.isIntegral = true) (js : List Nat) :
    b.merged js = .count (b.kind.hold (b.total js)) := by
  have empty : b.kind.zero = .count (b.kind.hold 0) := by
    cases b with
    | int | atomicInt => rfl
    | double | unlimited | weight | mean | weightedMean => contradiction
  rw [merged_eq_merge (not_unlimited_of_isIntegral integral), empty, foldl_merge_get integral,
    Nat.zero_add]

/-- A slot holds the number of all entries that are sent there. -/
theorem tally_gather (integral : b.kind.isIntegral = true) {length i : Nat} (below : i < length) :
    (b.gather length target).tally i =
      b.kind.hold (∑ p ∈ Finset.range b.length, if target p = some i then b.tally p else 0) := by
  apply tally_of_get
  rw [get_gather_of_apart (not_unlimited_of_isIntegral integral) below, merged_eq_hold integral,
    total_sources]

theorem gather_congr {length : Nat} {other : Nat → Option Nat}
    (same : ∀ p < b.length, target p = other p) :
    b.gather length target = b.gather length other := by
  rw [gather_eq_foldl, gather_eq_foldl]
  apply List.foldl_ext
  intro out p among
  rw [send, send, same p (List.mem_range.mp among)]

/-- Sending the slots on from where they were sent is sending them there at once. -/
theorem gather_gather (integral : b.kind.isIntegral = true) {between length : Nat}
    (lands : ∀ p < b.length, ∀ i, target p = some i → i < between) (next : Nat → Option Nat) :
    (b.gather between target).gather length next =
      b.gather length fun p => target p >>= next := by
  refine eq_of_tally (by simpa) (by simp) (by simp) fun k below => ?_
  rw [length_gather] at below
  rw [tally_gather (by simpa) below, tally_gather integral below, kind_gather, length_gather]
  calc b.kind.hold (∑ i ∈ Finset.range between,
        if next i = some k then (b.gather between target).tally i else 0)
      = b.kind.hold (∑ i ∈ Finset.range between, b.kind.hold
          (if next i = some k then
            ∑ p ∈ Finset.range b.length, if target p = some i then b.tally p else 0
          else 0)) := by
        congr 1
        refine Finset.sum_congr rfl fun i among => ?_
        split
        · exact tally_gather integral (Finset.mem_range.mp among)
        · exact (b.kind.hold_of_lt (by decide)).symm
    _ = b.kind.hold (∑ i ∈ Finset.range between, ∑ p ∈ Finset.range b.length,
          if next i = some k ∧ target p = some i then b.tally p else 0) := by
        rw [StorageKind.hold_sum]
        congr 1
        refine Finset.sum_congr rfl fun i _ => ?_
        by_cases sent : next i = some k <;> simp [sent]
    _ = b.kind.hold (∑ p ∈ Finset.range b.length,
          if (target p >>= next) = some k then b.tally p else 0) := by
        rw [Finset.sum_comm]
        congr 1
        refine Finset.sum_congr rfl fun p among => ?_
        cases sent : target p with
        | none => simp
        | some i =>
          have inside := lands p (Finset.mem_range.mp among) i sent
          rw [Finset.sum_eq_single_of_mem i (Finset.mem_range.mpr inside)]
          · simp
          · intro other _ apart
            simp [apart.symm]

/-- Where no slot is dropped, the slots that are sent to hold all entries. -/
theorem hold_sum_tally_gather (integral : b.kind.isIntegral = true) {length : Nat}
    (lands : ∀ p < b.length, ∃ i < length, target p = some i) :
    b.kind.hold (∑ i ∈ Finset.range length, (b.gather length target).tally i) =
      b.kind.hold (∑ p ∈ Finset.range b.length, b.tally p) := by
  calc b.kind.hold (∑ i ∈ Finset.range length, (b.gather length target).tally i)
      = b.kind.hold (∑ i ∈ Finset.range length, b.kind.hold
          (∑ p ∈ Finset.range b.length, if target p = some i then b.tally p else 0)) := by
        congr 1
        exact Finset.sum_congr rfl fun i among =>
          tally_gather integral (Finset.mem_range.mp among)
    _ = b.kind.hold (∑ p ∈ Finset.range b.length, ∑ i ∈ Finset.range length,
          if target p = some i then b.tally p else 0) := by
        rw [StorageKind.hold_sum, Finset.sum_comm]
    _ = b.kind.hold (∑ p ∈ Finset.range b.length, b.tally p) := by
        congr 1
        refine Finset.sum_congr rfl fun p among => ?_
        obtain ⟨i, below, sent⟩ := lands p (Finset.mem_range.mp among)
        rw [Finset.sum_eq_single_of_mem i (Finset.mem_range.mpr below)]
        · rw [if_pos sent]
        · intro other _ apart
          rw [if_neg]
          rintro same
          exact apart (Option.some.inj (sent.symm.trans same)).symm

/-! ### Adding -/

theorem get_foldl_addFrom (apart : b.kind ≠ .unlimited) (same : c.kind = b.kind) {js : List Nat}
    (once : js.Nodup) (exist : ∀ j ∈ js, j < b.length) (k : Nat) :
    (js.foldl (fun out j => out.addFrom j c j) b).get k =
      if k ∈ js then b.kind.merge (b.get k) (c.get k) else b.get k := by
  induction js generalizing b with
  | nil => rfl
  | cons j js ih =>
    obtain ⟨fresh, once⟩ := List.nodup_cons.mp once
    obtain ⟨inside, exist⟩ := List.forall_mem_cons.mp exist
    have kind : (b.addFrom j c j).kind = b.kind := kind_addFrom ..
    rw [List.foldl_cons, ih (kind ▸ apart) (same.trans kind.symm) once
      (by simpa using exist), kind, get_addFrom j apart same]
    by_cases here : k = j
    · subst here
      simp [fresh, inside]
    · simp [here]

/-- Each slot of the sum is the merge of the two slots. -/
theorem get_addAll (apart : b.kind ≠ .unlimited) (same : c.kind = b.kind)
    (length : c.length = b.length) {k : Nat} (below : k < b.length) :
    (b.addAll c).get k = b.kind.merge (b.get k) (c.get k) := by
  have bound : min b.length c.length = b.length := by omega
  rw [addAll, bound, get_foldl_addFrom apart same List.nodup_range
    (fun j among => List.mem_range.mp among), if_pos (List.mem_range.mpr below)]

@[simp] theorem length_addAll (b c : Bins) : (b.addAll c).length = b.length :=
  (length_kind_addAll b c).1

@[simp] theorem kind_addAll (b c : Bins) : (b.addAll c).kind = b.kind :=
  (length_kind_addAll b c).2

section Sums
variable (integral : b.kind.isIntegral = true) (same : c.kind = b.kind)
  (length : c.length = b.length)
include integral same length

theorem tally_addAll {k : Nat} (below : k < b.length) :
    (b.addAll c).tally k = b.kind.hold (b.tally k + c.tally k) := by
  apply tally_of_get
  rw [get_addAll (not_unlimited_of_isIntegral integral) same length below, get_eq_count integral,
    get_eq_count (same ▸ integral), StorageKind.merge_count]

theorem addAll_comm : b.addAll c = c.addAll b := by
  refine eq_of_tally (by simpa) (by simpa) (by simpa) fun i below => ?_
  rw [length_addAll] at below
  rw [tally_addAll integral same length below,
    tally_addAll (same ▸ integral) same.symm length.symm (length ▸ below), same, Nat.add_comm]

theorem addAll_assoc (alike : d.kind = b.kind) (long : d.length = b.length) :
    (b.addAll c).addAll d = b.addAll (c.addAll d) := by
  refine eq_of_tally (by simpa) (by simp) (by simp) fun i below => ?_
  rw [length_addAll, length_addAll] at below
  have left : ((b.addAll c).addAll d).tally i =
      b.kind.hold (b.kind.hold (b.tally i + c.tally i) + d.tally i) := by
    rw [tally_addAll (by simpa) (by simpa) (by simpa) (by simpa), kind_addAll,
      tally_addAll integral same length below]
  have right : (b.addAll (c.addAll d)).tally i =
      b.kind.hold (b.tally i + b.kind.hold (c.tally i + d.tally i)) := by
    rw [tally_addAll integral (by simpa) (by simpa) below,
      tally_addAll (same ▸ integral) (by simp [same, alike]) (by simp [length, long])
        (length ▸ below), same]
  rw [left, right, StorageKind.hold_hold_add, StorageKind.hold_add_hold, Nat.add_assoc]

/-- Gathering a sum is adding what is gathered. -/
theorem gather_addAll (n : Nat) (target : Nat → Option Nat) :
    (b.addAll c).gather n target = (b.gather n target).addAll (c.gather n target) := by
  refine eq_of_tally (by simpa) (by simp) (by simp) fun i below => ?_
  rw [length_gather] at below
  have left : ((b.addAll c).gather n target).tally i =
      b.kind.hold (∑ p ∈ Finset.range b.length, b.kind.hold
        (if target p = some i then b.tally p + c.tally p else 0)) := by
    rw [tally_gather (by simpa) below, kind_addAll, length_addAll, ← StorageKind.hold_sum]
    congr 1
    refine Finset.sum_congr rfl fun p among => ?_
    split
    · rw [tally_addAll integral same length (Finset.mem_range.mp among), StorageKind.hold_hold]
    · rfl
  have right : ((b.gather n target).addAll (c.gather n target)).tally i =
      b.kind.hold (b.kind.hold (∑ p ∈ Finset.range b.length,
          if target p = some i then b.tally p else 0) +
        b.kind.hold (∑ p ∈ Finset.range b.length,
          if target p = some i then c.tally p else 0)) := by
    rw [tally_addAll (by simpa) (by simpa) (by simp) (by simpa), kind_gather,
      tally_gather integral below, tally_gather (same ▸ integral) below, same, length]
  rw [left, right, StorageKind.hold_sum, StorageKind.hold_hold_add, StorageKind.hold_add_hold,
    ← Finset.sum_add_distrib]
  congr 1
  refine Finset.sum_congr rfl fun p _ => ?_
  split <;> rfl

end Sums

end Bins
end Binning
