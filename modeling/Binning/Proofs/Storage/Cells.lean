import Binning.Proofs.Binary64
import Binning.Storage.Bins

/-! What storage operations do to one slot. In every storage but the unlimited
one the slots do not depend on each other: an operation on a slot changes its
cell as the kind says and leaves the others alone. -/
namespace Binning

/-! ### Cells -/

namespace StorageKind

/-- The cell of a slot before any entry. -/
def zero : StorageKind → Cell
  | int | atomicInt | unlimited => .count 0
  | double => .real 0
  | weight => .weighted .empty
  | mean => .mean .empty
  | weightedMean => .weightedMean .empty

/-- Counts stop at the largest word, unless they are shared and start again. -/
def addCounts (kind : StorageKind) (m n : Nat) : Nat :=
  if kind = atomicInt then Word64.addWrapping m n else Word64.addSaturating m n

def merge (kind : StorageKind) : Cell → Cell → Cell
  | .count m, .count n => .count (kind.addCounts m n)
  | .real x, .real y => .real (x + y)
  | .weighted s, .weighted t => .weighted (s.merge t)
  | .mean m, .mean n => .mean (m.merge n)
  | .weightedMean m, .weightedMean n => .weightedMean (m.merge n)
  | cell, _ => cell

def enter (kind : StorageKind) (weight sample : Option Float) (cell : Cell) : Cell :=
  let w := weight.getD 1
  let x := sample.getD 0
  match cell with
  | .count n => .count (kind.addCounts n (Binary64.toUnsigned w))
  | .real y => .real (y + w)
  | .weighted s => .weighted (s.fill w)
  | .mean m => .mean (m.fill w x)
  | .weightedMean m => .weightedMean (m.fill w x)

theorem addCounts_lt (kind : StorageKind) (m n : Nat) : kind.addCounts m n < 2 ^ 64 := by
  unfold addCounts
  split
  · exact Nat.mod_lt _ (by decide)
  · exact Nat.lt_of_le_of_lt (Nat.min_le_left ..) (by decide)

theorem zero_addCounts (kind : StorageKind) {n : Nat} (small : n < 2 ^ 64) :
    kind.addCounts 0 n = n := by
  unfold addCounts Word64.addWrapping Word64.addSaturating Word64.maxUnsigned
  split <;> omega

theorem zero_of_isIntegral {kind : StorageKind} (integral : kind.isIntegral = true) :
    kind.zero = .count 0 := by
  cases kind with
  | int | atomicInt => rfl
  | double | unlimited | weight | mean | weightedMean => contradiction

end StorageKind

/-! ### Slots -/

theorem getD_modify {α : Type} (slots : Array α) (f : α → α) (i k : Nat) (default : α) :
    (slots.modify i f).getD k default =
      if k = i ∧ i < slots.size then f (slots.getD k default) else slots.getD k default := by
  simp only [Array.getD_eq_getD_getElem?, Array.getElem?_modify]
  by_cases same : i = k
  · subst same
    by_cases below : i < slots.size
    · simp [below]
    · simp [below]
  · rw [if_neg same, if_neg (fun both => same both.1.symm)]

namespace Unlimited

@[simp] theorem length_empty (n : Nat) : (empty n).length = n := Array.size_replicate

@[simp] theorem size_toReals (u : Unlimited) : u.toReals.size = u.length := by
  cases u
  · exact Array.size_map
  · rfl

@[simp] theorem length_addReal (u : Unlimited) (i : Nat) (x : Float) :
    (u.addReal i x).length = u.length := by
  simp [addReal, length]

@[simp] theorem length_addCount (u : Unlimited) (i n : Nat) :
    (u.addCount i n).length = u.length := by
  cases u with
  | reals slots => exact length_addReal ..
  | counts width slots =>
    simp only [addCount]
    split
    · exact Array.size_modify
    · exact length_addReal ..

@[simp] theorem length_add (u : Unlimited) (i : Nat) (w : Float) :
    (u.add i w).length = u.length := by
  unfold add
  split
  · split
    · exact length_addCount ..
    · exact length_addReal ..
  · exact length_addReal ..

@[simp] theorem length_addFrom (u : Unlimited) (i : Nat) (other : Unlimited) (j : Nat) :
    (u.addFrom i other j).length = u.length := by
  cases other
  · exact length_addCount ..
  · exact length_addReal ..

@[simp] theorem length_scale (u : Unlimited) (factor : Float) :
    (u.scale factor).length = u.length := by
  simp [scale, length]

end Unlimited

namespace Bins

@[simp] theorem length_empty (kind : StorageKind) (n : Nat) : (empty kind n).length = n := by
  cases kind <;> simp [empty, length]

@[simp] theorem kind_empty (kind : StorageKind) (n : Nat) : (empty kind n).kind = kind := by
  cases kind <;> rfl

@[simp] theorem get_empty (kind : StorageKind) (n i : Nat) : (empty kind n).get i = kind.zero := by
  cases kind <;>
    simp only [empty, get, Unlimited.get, Unlimited.empty, StorageKind.zero,
      Array.getD_eq_getD_getElem?, Array.getElem?_replicate] <;>
    split <;> rfl

variable (b : Bins) (i : Nat)

@[simp] theorem length_record (weight sample : Option Float) :
    (b.record i weight sample).length = b.length := by
  cases b <;> simp [record, length]

@[simp] theorem kind_record (weight sample : Option Float) :
    (b.record i weight sample).kind = b.kind := by
  cases b <;> rfl

/-- One more entry changes its own slot only. -/
theorem get_record {b : Bins} (apart : b.kind ≠ .unlimited) (weight sample : Option Float)
    (k : Nat) :
    (b.record i weight sample).get k =
      if k = i ∧ i < b.length then b.kind.enter weight sample (b.get k) else b.get k := by
  cases b with
  | unlimited => exact absurd rfl apart
  | int | atomicInt => exact (congrArg Cell.count (getD_modify ..)).trans (apply_ite ..)
  | double => exact (congrArg Cell.real (getD_modify ..)).trans (apply_ite ..)
  | weight => exact (congrArg Cell.weighted (getD_modify ..)).trans (apply_ite ..)
  | mean => exact (congrArg Cell.mean (getD_modify ..)).trans (apply_ite ..)
  | weightedMean => exact (congrArg Cell.weightedMean (getD_modify ..)).trans (apply_ite ..)

@[simp] theorem length_addFrom (other : Bins) (j : Nat) :
    (b.addFrom i other j).length = b.length := by
  cases b <;> cases other <;> simp [addFrom, length]

@[simp] theorem kind_addFrom (other : Bins) (j : Nat) : (b.addFrom i other j).kind = b.kind := by
  cases b <;> cases other <;> rfl

/-- A merge changes the slot that it goes to only. -/
theorem get_addFrom {b other : Bins} (apart : b.kind ≠ .unlimited) (same : other.kind = b.kind)
    (j k : Nat) :
    (b.addFrom i other j).get k =
      if k = i ∧ i < b.length then b.kind.merge (b.get k) (other.get j) else b.get k := by
  cases b <;> cases other <;> try contradiction
  · exact (congrArg Cell.count (getD_modify ..)).trans (apply_ite ..)
  · exact (congrArg Cell.real (getD_modify ..)).trans (apply_ite ..)
  · exact (congrArg Cell.count (getD_modify ..)).trans (apply_ite ..)
  · exact (congrArg Cell.weighted (getD_modify ..)).trans (apply_ite ..)
  · exact (congrArg Cell.mean (getD_modify ..)).trans (apply_ite ..)
  · exact (congrArg Cell.weightedMean (getD_modify ..)).trans (apply_ite ..)

theorem recordShared_eq_record {b shared : Bins} (recorded : b.recordShared i = .ok shared) :
    b.kind = .atomicInt ∧ shared = b.record i none none := by
  cases b <;> cases recorded
  exact ⟨rfl, rfl⟩

theorem recordShared_of_atomicInt {b : Bins} (atomic : b.kind = .atomicInt) (i : Nat) :
    b.recordShared i = .ok (b.record i none none) := by
  cases b <;> cases atomic
  rfl

theorem length_scale {b scaled : Bins} {factor : Float} (done : b.scale factor = .ok scaled) :
    scaled.length = b.length ∧ scaled.kind = b.kind := by
  cases b <;> cases done <;> simp [length, kind]

end Bins

/-- The same content, where the zeros of sums are not told apart. -/
def Cell.Alike : Cell → Cell → Prop
  | real x, real y => Binary64.Alike x y
  | weighted s, weighted t =>
    Binary64.Alike s.value t.value ∧ Binary64.Alike s.variance t.variance
  | cell, other => cell = other

theorem Cell.Alike.refl (cell : Cell) : cell.Alike cell := by
  cases cell with
  | real x => exact Binary64.Alike.refl x
  | weighted s => exact ⟨Binary64.Alike.refl _, Binary64.Alike.refl _⟩
  | _ => rfl

/-- The bins are counts of a word or sums of weights. -/
def StorageKind.isPlain (kind : StorageKind) : Bool :=
  kind matches int | atomicInt | double | weight

namespace Bins

/-! ### Counts stay words -/

/-- Counts that cannot widen are words. -/
def Words (b : Bins) : Prop :=
  b.kind.isIntegral = true → ∀ i n, b.get i = .count n → n < 2 ^ 64

theorem not_unlimited_of_isIntegral {kind : StorageKind} (integral : kind.isIntegral = true) :
    kind ≠ .unlimited := by
  rintro rfl
  contradiction

theorem words_empty (kind : StorageKind) (n : Nat) : (empty kind n).Words := by
  intro integral i m found
  rw [kind_empty] at integral
  rw [get_empty] at found
  cases kind <;> cases found <;> decide

theorem Words.record {b : Bins} (words : b.Words) (i : Nat) (weight sample : Option Float) :
    (b.record i weight sample).Words := by
  intro integral k n found
  rw [kind_record] at integral
  rw [get_record i (not_unlimited_of_isIntegral integral)] at found
  split at found
  · cases cell : b.get k <;> rw [cell] at found <;> cases found
    exact StorageKind.addCounts_lt ..
  · exact words integral k n found

theorem Words.addFrom {b other : Bins} (words : b.Words) (same : other.kind = b.kind) (i j : Nat) :
    (b.addFrom i other j).Words := by
  intro integral k n found
  rw [kind_addFrom] at integral
  rw [get_addFrom i (not_unlimited_of_isIntegral integral) same] at found
  split at found
  · cases old : b.get k with
    | count m =>
      cases new : other.get j with
      | count =>
        rw [old, new] at found
        cases found
        exact StorageKind.addCounts_lt ..
      | _ =>
        rw [old, new] at found
        cases found
        exact words integral k n old
    | _ => cases new : other.get j <;> rw [old, new] at found <;> cases found
  · exact words integral k n found

/-- What every merge keeps is kept by the sum. -/
theorem addAll_of_addFrom {P : Bins → Prop} {b other : Bins}
    (keeps : ∀ out i j, P out → P (out.addFrom i other j)) (holds : P b) : P (b.addAll other) := by
  unfold addAll
  generalize List.range (min b.length other.length) = js
  induction js generalizing b with
  | nil => exact holds
  | cons j js ih => exact ih (keeps b j j holds)

theorem length_kind_addAll (b other : Bins) :
    (b.addAll other).length = b.length ∧ (b.addAll other).kind = b.kind := by
  refine addAll_of_addFrom (P := fun out => out.length = b.length ∧ out.kind = b.kind) ?_ ⟨rfl, rfl⟩
  rintro out i j ⟨length, kind⟩
  exact ⟨(length_addFrom ..).trans length, (kind_addFrom ..).trans kind⟩

theorem Words.addAll {b other : Bins} (words : b.Words) (same : other.kind = b.kind) :
    (b.addAll other).Words := by
  refine (addAll_of_addFrom (P := fun out => out.Words ∧ other.kind = out.kind) ?_
    ⟨words, same⟩).1
  rintro out i j ⟨words, same⟩
  exact ⟨words.addFrom same i j, same.trans (kind_addFrom ..).symm⟩

theorem Words.scale {b scaled : Bins} {factor : Float} (done : b.scale factor = .ok scaled) :
    scaled.Words := by
  intro integral
  cases b <;> cases done <;> contradiction

/-- A count that is merged into an empty slot stays what it is. -/
theorem Words.merge_zero {b : Bins} (words : b.Words) (integral : b.kind.isIntegral = true)
    (i : Nat) : b.kind.merge b.kind.zero (b.get i) = b.get i := by
  cases b with
  | int | atomicInt =>
    have small := words rfl i _ rfl
    exact congrArg Cell.count (StorageKind.zero_addCounts _ small)
  | double | unlimited | weight | mean | weightedMean => contradiction

/-- Other content stays alike. -/
theorem Words.alike_merge_zero {b : Bins} (words : b.Words) (plain : b.kind.isPlain = true)
    (i : Nat) : (b.kind.merge b.kind.zero (b.get i)).Alike (b.get i) := by
  cases b with
  | int | atomicInt => exact words.merge_zero rfl i
  | double => exact Binary64.alike_zero_add _
  | weight => exact ⟨Binary64.alike_zero_add _, Binary64.alike_zero_add _⟩
  | unlimited | mean | weightedMean => contradiction

/-- What has been merged into an empty slot stays the same in the next. -/
theorem Words.merge_zero_merge_zero {b : Bins} (words : b.Words) (plain : b.kind.isPlain = true)
    (i : Nat) : b.kind.merge b.kind.zero (b.kind.merge b.kind.zero (b.get i)) =
      b.kind.merge b.kind.zero (b.get i) := by
  cases b with
  | int | atomicInt => exact congrArg (StorageKind.merge _ (.count 0)) (words.merge_zero rfl i)
  | double => exact congrArg Cell.real (Binary64.zero_add_zero_add _)
  | weight =>
    exact congrArg Cell.weighted (congrArg₂ WeightedSum.mk (Binary64.zero_add_zero_add _)
      (Binary64.zero_add_zero_add _))
  | unlimited | mean | weightedMean => contradiction

/-- An entry then finds it as it was. -/
theorem Words.alike_enter_merge_zero {b : Bins} (words : b.Words)
    (plain : b.kind.isPlain = true) (i : Nat) (weight sample : Option Float) :
    (b.kind.enter weight sample (b.kind.merge b.kind.zero (b.get i))).Alike
      (b.kind.enter weight sample (b.get i)) := by
  cases b with
  | int | atomicInt => exact congrArg (StorageKind.enter _ weight sample) (words.merge_zero rfl i)
  | double => exact Binary64.alike_zero_add_add _ _
  | weight => exact ⟨Binary64.alike_zero_add_add _ _, Binary64.alike_zero_add_add _ _⟩
  | unlimited | mean | weightedMean => contradiction

end Bins
end Binning
