import Binning.Proofs.Axis.Located
import Binning.Proofs.Binary64.Whole

/-! Growing a range of integers. The lookup is exact, but growth goes through
the nearest numbers, so an integer gets its own bin if and only if its distance
from the start is one of them. -/
namespace Binning
open Results Binary64

/-! ### Bins to be added -/

theorem addedBins_of_denotes {x : Float} {k : Int} {n : Nat} (denotes : Denotes x k)
    (nonneg : 0 ≤ k) (added : addedBins x = .ok n) : (n : Int) = k ∧ n ≤ growthLimit := by
  rw [addedBins, throw_ite_eq_ok, pure_eq_ok] at added
  obtain ⟨within, counted⟩ := added
  have few : ¬ ((growthLimit : Nat) : Int) < k := fun large =>
    within (((denotes_ofNat (by decide)).lt_iff denotes).mpr large)
  have word : toSigned x = k := by
    rw [denotes.toSigned]
    unfold growthLimit at few
    unfold Word64.clampSigned Word64.minSigned Word64.maxSigned
    omega
  have same : (toSigned x).toNat = n := counted
  omega

theorem addedBins_of_difference {x y : Float} {i j : Int} {n : Nat} (left : Denotes x i)
    (right : Denotes y j) (above : j ≤ i) (added : addedBins (x - y + 1) = .ok n) :
    (n : Int) = i - j + 1 ∧ n ≤ growthLimit := by
  rcases left.sub_add_one right above with exact_sum | large
  · exact addedBins_of_denotes exact_sum (by omega) added
  · rw [addedBins, throw_ite_eq_ok] at added
    exact absurd (lt_of_reaches (by decide) (by decide) large) added.1

/-! ### Growth of the range -/

namespace IntegerRange
variable {r s : IntegerRange} {x i : Int} {front : Nat}

/-- What growth makes of a distance `k` from the start and a size `m`, both as
the nearest numbers have them. -/
inductive Grows (r : IntegerRange) (k : Int) (m : Nat) : Int → Nat → IntegerRange → Prop
  | front {added : Nat} : k < 0 → (added : Int) = -k → added ≤ growthLimit →
    Grows r k m 0 added ⟨r.start - added, r.size + added⟩
  | behind {added : Nat} : (m : Int) ≤ k → (added : Int) = k - m + 1 → added ≤ growthLimit →
    Grows r k m (Word64.clampSigned k) 0 ⟨r.start, r.size + added⟩
  | within : 0 ≤ k → k < m → Grows r k m (Word64.clampSigned k) 0 r

theorem grows_of_grow (start : Word64.Signed r.start) (word : r.size < 2 ^ 64)
    (signed : Word64.Signed x) (grown : r.grow (ofInt x) = .ok (i, front, s)) :
    ∃ (k : Int) (m : Nat), Denotes (ofInt x - ofInt r.start) k ∧ Denotes (ofNat r.size) m ∧
      r.Grows k m i front s := by
  obtain ⟨_, _, _, number⟩ := exists_denotes_ofInt signed
  obtain ⟨m, _, _, size⟩ := exists_denotes_ofNat word
  obtain ⟨k, _, distance⟩ := exists_denotes_sub signed start
  refine ⟨k, m, distance, size, ?_⟩
  cases growsTo_of_grow grown with
  | front below counted =>
    rw [number.floor] at below counted
    have negative := (distance.lt_iff denotes_zero).mp below
    obtain ⟨exact_count, few⟩ := addedBins_of_denotes distance.neg (by omega) counted
    exact .front negative exact_count few
  | behind nonneg beyond counted =>
    rw [number.floor] at beyond counted
    have beyond := (size.le_iff distance).mp beyond
    obtain ⟨exact_count, few⟩ := addedBins_of_difference distance size beyond counted
    rw [number.floor, distance.toSigned]
    exact .behind beyond exact_count few
  | within nonneg short =>
    rw [number.floor] at nonneg short
    have nonneg := mt (distance.lt_iff denotes_zero).mpr nonneg
    have short := mt (size.le_iff distance).mpr short
    rw [number.floor, distance.toSigned]
    exact .within (by omega) (by omega)

theorem Grows.start_size {k : Int} {m : Nat} (grows : r.Grows k m i front s) :
    s.start = r.start - front ∧ r.size + front ≤ s.size ∧ s.size ≤ r.size + growthLimit := by
  cases grows with
  | front _ _ few => exact ⟨rfl, Nat.le_refl _, Nat.add_le_add_left few _⟩
  | behind _ _ few => exact ⟨(Int.sub_zero _).symm, Nat.le_add_right .., Nat.add_le_add_left few _⟩
  | within => exact ⟨(Int.sub_zero _).symm, Nat.le_refl _, Nat.le_add_right ..⟩

theorem Grows.eq_of_size {k : Int} {m : Nat} (grows : r.Grows k m i front s)
    (same : s.size = r.size) : s = r := by
  cases grows with
  | front _ added =>
    have larger : r.size + front = r.size := same
    omega
  | @behind added _ bins =>
    have larger : r.size + added = r.size := same
    omega
  | within => rfl

/-- An integer of the range has its distance from the start as its bin. -/
theorem indexInt_inside (word : r.size < 2 ^ 63) {k : Int} (low : 0 ≤ k) (high : k < r.size) :
    r.indexInt (r.start + k) = k := by
  rw [indexInt, Word64.signed_of_lt word]
  unfold Word64.clampSigned Word64.minSigned Word64.maxSigned
  omega

theorem eq_of_indexInt (word : r.size < 2 ^ 63) {k : Int} (low : 0 ≤ k) (high : k < r.size)
    (found : r.indexInt x = k) : x = r.start + k := by
  rw [indexInt, Word64.signed_of_lt word] at found
  unfold Word64.clampSigned Word64.minSigned Word64.maxSigned at found
  omega

end IntegerRange

/-! ### Placement on the axis -/

namespace Axis
variable {a : Axis} {r s : IntegerRange} {x i : Int} {p : Placement} {options : Options}
  {label : Option String}

/-- Bin `i` of the axis is that of the integer, by its distance from the start. -/
structure Holds (b : Axis) (x i : Int) : Prop where
  distance : ∃ s, b.law = .integer s ∧ i = x - s.start
  inside : b.InRange i
  index : b.index (.int x) = .ok i

theorem index_int (r : IntegerRange) (options : Options) (label : Option String) (x : Int) :
    index ⟨.integer r, options, label⟩ (.int x) = .ok (r.indexInt x) := rfl

theorem inRange_integer (word : s.size < 2 ^ 64) :
    InRange ⟨.integer s, options, label⟩ i ↔ s.size < 2 ^ 63 ∧ 0 ≤ i ∧ i < s.size := by
  change 0 ≤ i ∧ i < Word64.signed s.size ↔ _
  rw [Word64.signed_eq_bmod, Int.bmod_def]
  omega

theorem holds_iff (word : s.size < 2 ^ 64) : Holds ⟨.integer s, options, label⟩ x i ↔
    s.size < 2 ^ 63 ∧ i = x - s.start ∧ 0 ≤ i ∧ i < s.size := by
  constructor
  · rintro ⟨⟨_, same, distance⟩, inside, _⟩
    cases same
    obtain ⟨short, low, high⟩ := (inRange_integer word).mp inside
    exact ⟨short, distance, low, high⟩
  · rintro ⟨short, distance, low, high⟩
    refine ⟨⟨s, rfl, distance⟩, (inRange_integer word).mpr ⟨short, low, high⟩, ?_⟩
    have integer : x = s.start + i := by omega
    rw [index_int, integer, IntegerRange.indexInt_inside short low high]

/-- An integer in range stays where it is; for another the range grows. -/
theorem locate_int_cases (grows : options.growth = true) (start : Word64.Signed r.start)
    (word : r.size < 2 ^ 63) (signed : Word64.Signed x)
    (placed : locate ⟨.integer r, options, label⟩ (.int x) = .ok p) :
    (r.start ≤ x ∧ x < r.start + r.size ∧ p = ⟨x - r.start, 0, none⟩) ∨
      ¬ (r.start ≤ x ∧ x < r.start + r.size) ∧ ∃ (k : Int) (m : Nat) (s : IntegerRange),
        Denotes (ofInt x - ofInt r.start) k ∧ Denotes (ofNat r.size) m ∧
          r.Grows k m p.index p.front s ∧
          p.grown.getD ⟨.integer r, options, label⟩ = ⟨.integer s, options, label⟩ := by
  simp only [locate, bind_eq_ok, index_int] at placed
  obtain ⟨_, found, placed⟩ := placed
  cases found
  have inside : InRange ⟨.integer r, options, label⟩ (r.indexInt x) ↔
      r.size < 2 ^ 63 ∧ 0 ≤ r.indexInt x ∧ r.indexInt x < r.size := inRange_integer (by omega)
  split at placed
  · rename_i within
    obtain ⟨_, low, high⟩ := inside.mp within
    have integer := IntegerRange.eq_of_indexInt word low high rfl
    cases placed
    left
    refine ⟨by omega, by omega, ?_⟩
    congr
    omega
  · rename_i outside
    rw [inside] at outside
    right
    constructor
    · rintro ⟨low, high⟩
      have bin := IntegerRange.indexInt_inside word (k := x - r.start) (by omega) (by omega)
      rw [show r.start + (x - r.start) = x by omega] at bin
      omega
    · simp only [grow, bind_eq_ok, pure_eq_ok] at placed
      obtain ⟨⟨i, front, new⟩, ⟨number, read, ⟨_, _, s⟩, grown, same⟩, rfl⟩ := placed
      cases same
      cases read
      obtain ⟨k, m, distance, size, grows⟩ :=
        IntegerRange.grows_of_grow start (by omega) signed grown
      refine ⟨k, m, s, distance, size, grows, ?_⟩
      dsimp only
      split
      · rename_i same
        rw [grows.eq_of_size same]
        rfl
      · rfl

section Located
variable (grows : options.growth = true) (start : Word64.Signed r.start) (word : r.size < 2 ^ 63)
  (signed : Word64.Signed x)
  (placed : locate ⟨.integer r, options, label⟩ (.int x) = .ok p)
include grows start word signed placed

/-- The integers in range keep their bins, behind those that are added in front. -/
theorem index_of_locate_int
    (short : (p.grown.getD ⟨.integer r, options, label⟩).size < 2 ^ 63) {y k : Int}
    (found : index ⟨.integer r, options, label⟩ (.int y) = .ok k)
    (inside : InRange ⟨.integer r, options, label⟩ k) :
    (p.grown.getD ⟨.integer r, options, label⟩).Holds y (k + p.front) := by
  obtain ⟨_, low, high⟩ := (inRange_integer (by omega)).mp inside
  have integer := IntegerRange.eq_of_indexInt word low high (Except.ok.inj found)
  rcases locate_int_cases grows start word signed placed with
    ⟨_, _, rfl⟩ | ⟨_, distance, m, s, _, _, grows, target⟩
  · rw [Option.getD_none, holds_iff (by omega)]
    simp only
    omega
  · obtain ⟨front, room, _⟩ := grows.start_size
    rw [target] at short ⊢
    change s.size < 2 ^ 63 at short
    rw [holds_iff (by omega)]
    omega

theorem locate_int_holds_iff :
    (p.grown.getD ⟨.integer r, options, label⟩).Holds x p.index ↔
      (p.grown.getD ⟨.integer r, options, label⟩).size < 2 ^ 63 ∧
        (r.start ≤ x ∧ x < r.start + r.size ∨
          Denotes (ofInt x - ofInt r.start) (x - r.start) ∧
            (r.start ≤ x → ∃ m ≤ r.size, Denotes (ofNat r.size) m)) := by
  rcases locate_int_cases grows start word signed placed with
    ⟨low, high, rfl⟩ | ⟨outside, k, m, s, distance, size, grows, target⟩
  · rw [Option.getD_none, holds_iff (by omega)]
    exact iff_of_true ⟨word, rfl, by simp only; omega, by simp only; omega⟩
      ⟨word, .inl ⟨low, high⟩⟩
  · have bounded := grows.start_size.2.2
    unfold growthLimit at bounded
    have reads : Denotes (ofInt x - ofInt r.start) (x - r.start) ↔ x - r.start = k :=
      ⟨fun other => other.unique distance, fun same => same ▸ distance⟩
    have nearest : (∃ n ≤ r.size, Denotes (ofNat r.size) n) ↔ m ≤ r.size := by
      constructor
      · rintro ⟨n, few, other⟩
        have := other.unique size
        omega
      · exact fun few => ⟨m, few, size⟩
    rw [target, holds_iff (by omega), reads, nearest, or_iff_right outside]
    change _ ↔ s.size < 2 ^ 63 ∧ _
    generalize p.index = i at *
    generalize p.front = front at *
    cases grows with
    | front below added few =>
      simp only
      omega
    | @behind added beyond bins few =>
      simp only
      unfold Word64.clampSigned Word64.minSigned Word64.maxSigned
      omega
    | within low high =>
      unfold Word64.clampSigned Word64.minSigned Word64.maxSigned
      omega

end Located

/-- Where a growing range `r` of integers puts `x`, and what becomes of those in range. -/
structure GrowsFor (a : Axis) (r : IntegerRange) (x : Int) (p : Placement) : Prop where
  /-- An integer is put into its own bin if and only if its distance from the start is the
  difference of the nearest numbers, the number nearest to the size is not above it where the
  range grows behind, and the size stays a signed word. -/
  holds_iff : (p.grown.getD a).Holds x p.index ↔ (p.grown.getD a).size < 2 ^ 63 ∧
    (r.start ≤ x ∧ x < r.start + r.size ∨
      Denotes (ofInt x - ofInt r.start) (x - r.start) ∧
        (r.start ≤ x → ∃ m ≤ r.size, Denotes (ofNat r.size) m))
  /-- The integers in range keep their bins. -/
  kept : (p.grown.getD a).size < 2 ^ 63 → ∀ y k, a.index (.int y) = .ok k → a.InRange k →
    (p.grown.getD a).Holds y (k + p.front)
  holds_of_small : x.natAbs < 2 ^ 52 → r.start.natAbs < 2 ^ 52 → r.size < 2 ^ 52 →
    (p.grown.getD a).Holds x p.index

/-- Growth for an integer is exact where the differences of numbers are. -/
theorem growth_of_integers {a : Axis} {r : IntegerRange} (law : a.law = .integer r)
    (grows : a.options.growth = true) (start : Word64.Signed r.start) (word : r.size < 2 ^ 63)
    {x : Int} (signed : Word64.Signed x) {p : Placement} (placed : a.locate (.int x) = .ok p) :
    a.GrowsFor r x p := by
  obtain ⟨_, options, label⟩ := a
  obtain rfl : _ = Law.integer r := law
  have exactly := locate_int_holds_iff grows start word signed placed
  refine ⟨exactly, fun short y k => index_of_locate_int grows start word signed placed short,
    fun near origin few => exactly.mpr ⟨?_, ?_⟩⟩
  · rcases locate_int_cases grows start word signed placed with
      ⟨_, _, rfl⟩ | ⟨_, _, _, s, _, _, grows, target⟩
    · exact word
    · have bounded := grows.start_size.2.2
      rw [target]
      change s.size < 2 ^ 63
      unfold growthLimit at bounded
      omega
  · obtain ⟨k, same, distance⟩ := exists_denotes_sub signed start
    obtain ⟨m, kept, _, size⟩ := exists_denotes_ofNat (n := r.size) (by omega)
    exact .inr ⟨same near origin ▸ distance, fun _ => ⟨m, by omega, size⟩⟩

theorem growth_of_integers_behind :
    let a : Axis := ⟨.integer ⟨0, 3⟩, { growth := true }, none⟩
    let new : Axis := ⟨.integer ⟨0, 6⟩, { growth := true }, none⟩
    a.locate (.int 5) = .ok ⟨5, 0, some new⟩ ∧ new.Holds 5 5 ∧
      ∀ y k, a.index (.int y) = .ok k → a.InRange k → new.Holds y (k + 0) := by
  intro a new
  have placed : a.locate (.int 5) = .ok ⟨5, 0, some new⟩ := rfl
  have grows := growth_of_integers (a := a) rfl rfl (by decide) (by decide) (by decide) placed
  exact ⟨placed, grows.holds_of_small (by decide) (by decide) (by decide), grows.kept (by decide)⟩

/-- From `2 ^ 53` on, an integer may be placed in the bin of another. -/
theorem not_growth_of_integers_rounded :
    ¬ ∀ (a : Axis) (r : IntegerRange) (x : Int) (p : Placement), a.law = .integer r →
      a.options.growth = true → Word64.Signed r.start → 0 < r.size → r.size < 2 ^ 63 →
      Word64.Signed x → a.locate (.int x) = .ok p → (p.grown.getD a).Holds x p.index := by
  intro exactly
  have placed : locate ⟨.integer ⟨2 ^ 53, 1⟩, { growth := true }, none⟩ (.int (2 ^ 53 + 1)) =
      .ok ⟨0, 0, none⟩ := rfl
  obtain ⟨⟨s, same, distance⟩, _⟩ := exactly _ _ _ _ rfl rfl (by decide) (by decide) (by decide)
    (by decide) placed
  cases same
  contradiction

end Axis
end Binning
