import Binning.Proofs.Binary64.Whole
import Binning.Proofs.Storage.Counts

/-! Unlimited counters against the numbers that they stand for. While the
weights are whole and the totals are words, every slot is its exact total,
however often the counters have widened. The first entry that breaks this turns
all slots into sums of weights, and no entry or merge turns them back. -/
namespace Binning
open Binary64

/-! ### Weights -/

/-- The weight is that whole number of one word. -/
def Weighs (weight : Float) (n : Nat) : Prop := n < 2 ^ 64 ∧ Denotes weight n

theorem countable_iff {weight : Float} :
    Unlimited.countable weight = true ↔ ∃ n, Weighs weight n := by
  simp only [Unlimited.countable, Bool.and_eq_true, decide_eq_true_eq]
  constructor
  · rintro ⟨⟨nonneg, whole⟩, below⟩
    obtain ⟨i, denotes⟩ := exists_denotes_of_isWhole whole
    obtain ⟨n, rfl⟩ := Int.eq_ofNat_of_zero_le ((denotes_zero.le_iff denotes).mp nonneg)
    exact ⟨n, Int.ofNat_lt.mp ((denotes.lt_iff denotes_maxUnsigned).mp below), denotes⟩
  · rintro ⟨n, word, denotes⟩
    exact ⟨⟨(denotes_zero.le_iff denotes).mpr (Int.natCast_nonneg n), denotes.isWhole⟩,
      (denotes.lt_iff denotes_maxUnsigned).mpr (Int.ofNat_lt.mpr word)⟩

theorem Weighs.toUnsigned {weight : Float} {n : Nat} (weighs : Weighs weight n) :
    toUnsigned weight = n := by
  obtain ⟨word, denotes⟩ := weighs
  rw [denotes.toUnsigned, Word64.clampUnsigned, Int.toNat_natCast]
  exact Nat.min_eq_right (Nat.le_of_lt_succ word)

/-! ### Widening step by step -/

namespace Width
variable {w : Width} {n : Nat}

def wider? : Width → Option Width
  | eight => some sixteen
  | sixteen => some thirtyTwo
  | thirtyTwo => some sixtyFour
  | sixtyFour => none

theorem upward_eq (w : Width) : w.upward = w :: w.wider?.elim [] upward := by
  cases w <;> rfl

theorem fitting?_of_fits (fits : n < 1 <<< w.bits) : w.fitting? n = some w := by
  rw [fitting?, upward_eq, List.find?_cons_of_pos (by simpa using fits)]

theorem fitting?_of_large (large : ¬ n < 1 <<< w.bits) :
    w.fitting? n = w.wider?.bind (·.fitting? n) := by
  rw [fitting?, upward_eq, List.find?_cons_of_neg (by simpa using large)]
  cases w.wider? <;> rfl

end Width

namespace Unlimited
variable {u v : Unlimited} {i n k : Nat}

/-- One try to add a count, at the width that the counters have. -/
def bump? (u : Unlimited) (i n : Nat) : Option Unlimited :=
  match u with
  | reals _ => some (u.addReal i (Binary64.ofNat n))
  | counts width slots =>
    if slots.getD i 0 + n < 1 <<< width.bits then some (counts width (slots.modify i (· + n)))
    else none

/-- All counters one step wider; behind the widest they are sums of weights. -/
def promote (u : Unlimited) : Unlimited :=
  match u with
  | reals _ => u
  | counts width slots =>
    match width.wider? with
    | some wider => counts wider slots
    | none => reals u.toReals

/-- Trying again after each promotion succeeds after `k` of them. -/
inductive Retries (i n : Nat) : Nat → Unlimited → Unlimited → Prop
  | done {u v : Unlimited} : u.bump? i n = some v → Retries i n 0 u v
  | again {k : Nat} {u v : Unlimited} :
    u.bump? i n = none → Retries i n k u.promote v → Retries i n (k + 1) u v

/-- The promotions that are left. -/
def room : Unlimited → Nat
  | counts width _ => width.upward.length
  | reals _ => 0

theorem room_le (u : Unlimited) : u.room ≤ 4 := by
  cases u with
  | counts width => cases width <;> simp [room, Width.upward]
  | reals => exact Nat.zero_le 4

theorem room_promote (failed : u.bump? i n = none) : u.promote.room + 1 = u.room := by
  cases u with
  | counts width => cases width <;> rfl
  | reals => contradiction

theorem addCount_of_bump? (done : u.bump? i n = some v) : u.addCount i n = v := by
  cases u with
  | reals => exact Option.some.inj done
  | counts width slots =>
    simp only [bump?] at done
    split at done
    · rename_i fits
      cases done
      simp only [addCount, Width.fitting?_of_fits fits]
    · contradiction

/-- A promotion leaves what the addition comes to. -/
theorem addCount_promote (failed : u.bump? i n = none) :
    u.promote.addCount i n = u.addCount i n := by
  cases u with
  | reals => contradiction
  | counts width slots =>
    simp only [bump?] at failed
    split at failed
    · contradiction
    · rename_i large
      simp only [addCount, promote, Width.fitting?_of_large large]
      cases width.wider? <;> rfl

/-- The retries end, after four promotions at most, with the sum. -/
theorem exists_retries (u : Unlimited) (i n : Nat) : ∃ k ≤ 4, Retries i n k u (u.addCount i n) := by
  suffices ∀ left u, u.room = left → ∃ k ≤ left, Retries i n k u (u.addCount i n) by
    obtain ⟨k, few, retries⟩ := this _ u rfl
    exact ⟨k, Nat.le_trans few u.room_le, retries⟩
  intro left
  induction left with
  | zero =>
    intro u none_left
    cases tried : u.bump? i n with
    | some v => exact ⟨0, Nat.le_refl 0, .done (addCount_of_bump? tried ▸ tried)⟩
    | none => exact absurd ((room_promote tried).trans none_left) (Nat.succ_ne_zero _)
  | succ left ih =>
    intro u room
    cases tried : u.bump? i n with
    | some v => exact ⟨0, Nat.zero_le _, .done (addCount_of_bump? tried ▸ tried)⟩
    | none =>
      obtain ⟨k, few, retries⟩ := ih u.promote (Nat.succ.inj ((room_promote tried).trans room))
      exact ⟨k + 1, Nat.succ_le_succ few, .again tried (addCount_promote tried ▸ retries)⟩

theorem Retries.eq_addCount (retries : Retries i n k u v) : v = u.addCount i n := by
  induction retries with
  | done tried => exact (addCount_of_bump? tried).symm
  | again tried _ ih => exact ih.trans (addCount_promote tried)

end Unlimited

namespace Bins
variable {b c d : Bins} {i n : Nat} {weight sample : Option Float}

/-! ### One entry -/

theorem kind_of_turned (turned : b.turned = true) : b.kind = .unlimited := by
  cases b with
  | unlimited => rfl
  | int | double | atomicInt | weight | mean | weightedMean => contradiction

theorem get_eq_count_tally (free : b.kind = .unlimited) (whole : b.turned = false) (i : Nat) :
    b.get i = .count (b.tally i) := by
  cases b <;> cases free
  rename_i u
  cases u with
  | counts => rfl
  | reals => contradiction

section Record
variable (free : b.kind = .unlimited) (whole : b.turned = false) (below : i < b.length)
include free whole below

/-- An entry that is counted changes its own slot only. -/
theorem record_of_weighs (weighs : Weighs (weight.getD 1) n) (fits : b.tally i + n < 2 ^ 64) :
    (b.record i weight sample).turned = false ∧
      ∀ k, (b.record i weight sample).get k = .count (b.tally k + if k = i then n else 0) := by
  cases b <;> cases free
  rename_i u
  cases u with
  | reals => contradiction
  | counts width slots =>
    have counted : (Unlimited.counts width slots).add i (weight.getD 1) =
        (Unlimited.counts width slots).addCount i n := by
      rw [Unlimited.add, if_pos (countable_iff.mpr ⟨n, weighs⟩), weighs.toUnsigned]
    have added := Unlimited.addCount_of_fits (u := .counts width slots) rfl below fits
    rw [record, counted]
    exact added

/-- An entry that cannot be counted turns all slots. -/
theorem record_of_spills (small : b.tally i < 2 ^ 64)
    (spills : ¬ ∃ n, Weighs (weight.getD 1) n ∧ b.tally i + n < 2 ^ 64) :
    (b.record i weight sample).turned = true ∧ ∀ k < b.length,
      (b.record i weight sample).get k =
        .real (if k = i then ofNat (b.tally k) + weight.getD 1 else ofNat (b.tally k)) := by
  cases b <;> cases free
  rename_i u
  cases u with
  | reals => contradiction
  | counts width slots =>
    have turns : (Unlimited.counts width slots).add i (weight.getD 1) =
        (Unlimited.counts width slots).addReal i (weight.getD 1) := by
      rw [Unlimited.add]
      split
      · rename_i countable
        obtain ⟨n, weighs⟩ := countable_iff.mp countable
        have large : 2 ^ 64 ≤ ((Unlimited.counts width slots).get i).tally + n :=
          Nat.le_of_not_lt fun fits => spills ⟨n, weighs, fits⟩
        have positive : 0 < n := by
          change slots.getD i 0 < 2 ^ 64 at small
          change 2 ^ 64 ≤ slots.getD i 0 + n at large
          omega
        rw [weighs.toUnsigned, Unlimited.addCount_of_spills (.inr large),
          ofNat_eq_of_denotes positive weighs.1 weighs.2]
      · rfl
    rw [record, turns]
    exact ⟨rfl, fun k inside => Unlimited.get_addReal _ i _ inside⟩

end Record

/-! ### Runs of entries -/

/-- An entry for one of the slots, of weight one unless said otherwise. -/
structure Deposit (length : Nat) where
  slot : Fin length
  weight : Option Float

def recordAll {length : Nat} (b : Bins) (deposits : List (Deposit length)) : Bins :=
  deposits.foldl (fun b d => b.record d.slot d.weight none) b

/-- All weights are whole, and those of a slot come to `total`. -/
inductive Brings {length : Nat} : List (Deposit length) → (Nat → Nat) → Prop
  | nil : Brings [] fun _ => 0
  | snoc {deposits : List (Deposit length)} {total : Nat → Nat} {d : Deposit length} {n : Nat} :
    Brings deposits total → Weighs (d.weight.getD 1) n →
      Brings (deposits ++ [d]) fun i => total i + if i = d.slot then n else 0

/-- With what it held before, no slot exceeds a word. -/
def Fits (b : Bins) (total : Nat → Nat) : Prop := ∀ i < b.length, b.tally i + total i < 2 ^ 64

/-- The entry has no whole weight of a word, or one that takes its slot beyond a word. -/
def Spills (b : Bins) (total : Nat → Nat) (d : Deposit b.length) : Prop :=
  ¬ ∃ n, Weighs (d.weight.getD 1) n ∧ b.tally d.slot + total d.slot + n < 2 ^ 64

theorem recordAll_append {length : Nat} (b : Bins) (deposits : List (Deposit length))
    (d : Deposit length) :
    b.recordAll (deposits ++ [d]) = (b.recordAll deposits).record d.slot d.weight none := by
  rw [recordAll, List.foldl_append]
  rfl

theorem length_recordAll {length : Nat} (b : Bins) (deposits : List (Deposit length)) :
    (b.recordAll deposits).length = b.length ∧ (b.recordAll deposits).kind = b.kind := by
  induction deposits using List.reverseRecOn with
  | nil => exact ⟨rfl, rfl⟩
  | append_singleton deposits d ih =>
    rw [recordAll_append, length_record, kind_record]
    exact ih

section Run
variable {deposits : List (Deposit b.length)} {total : Nat → Nat} (free : b.kind = .unlimited)
  (whole : b.turned = false)
include free whole

/-- While the totals are words, every slot is its total. -/
theorem recordAll_counts (brings : Brings deposits total) (fits : b.Fits total) :
    (b.recordAll deposits).turned = false ∧
      ∀ i < b.length, (b.recordAll deposits).get i = .count (b.tally i + total i) := by
  induction brings with
  | nil => exact ⟨whole, fun i _ => get_eq_count_tally free whole i⟩
  | @snoc deposits total d n _ weighs ih =>
    have fits (i : Nat) (inside : i < b.length) :
        b.tally i + (total i + if i = d.slot then n else 0) < 2 ^ 64 := fits i inside
    obtain ⟨unturned, counts⟩ := ih fun i inside => by
      have := fits i inside
      omega
    obtain ⟨long, kind⟩ := length_recordAll b deposits
    have held (i : Nat) (inside : i < b.length) :
        (b.recordAll deposits).tally i = b.tally i + total i :=
      tally_of_get (counts i inside)
    have room : (b.recordAll deposits).tally d.slot + n < 2 ^ 64 := by
      have := fits d.slot d.slot.isLt
      rw [if_pos rfl] at this
      rw [held _ d.slot.isLt]
      omega
    rw [recordAll_append]
    obtain ⟨unturned, added⟩ := @record_of_weighs (b.recordAll deposits) d.slot n d.weight none
      (kind.trans free) unturned (long.symm ▸ d.slot.isLt) weighs room
    refine ⟨unturned, fun i inside => ?_⟩
    rw [added, held i inside, Nat.add_assoc]

/-- The first entry that cannot be counted turns all slots. -/
theorem recordAll_turns (brings : Brings deposits total) (fits : b.Fits total)
    {d : Deposit b.length} (spills : b.Spills total d) :
    (b.recordAll (deposits ++ [d])).turned = true ∧ ∀ i < b.length,
      (b.recordAll (deposits ++ [d])).get i =
        .real (if i = d.slot then ofNat (b.tally i + total i) + d.weight.getD 1
          else ofNat (b.tally i + total i)) := by
  obtain ⟨unturned, counts⟩ := recordAll_counts free whole brings fits
  obtain ⟨long, kind⟩ := length_recordAll b deposits
  have held (i : Nat) (inside : i < b.length) :
      (b.recordAll deposits).tally i = b.tally i + total i :=
    tally_of_get (counts i inside)
  have here := held d.slot d.slot.isLt
  have small : (b.recordAll deposits).tally d.slot < 2 ^ 64 := here ▸ fits d.slot d.slot.isLt
  rw [Spills, ← here] at spills
  rw [recordAll_append]
  obtain ⟨turned, reads⟩ := @record_of_spills (b.recordAll deposits) d.slot d.weight none
    (kind.trans free) unturned (long.symm ▸ d.slot.isLt) small spills
  refine ⟨turned, fun i inside => ?_⟩
  rw [reads i (long.symm ▸ inside), held i inside]

end Run

example : ((empty .unlimited 2).recordAll [⟨(0 : Fin 2), some 250⟩, ⟨0, some 10⟩]).cells.map
    Cell.tally = [260, 0] := by decide +kernel

/-- Either a whole run can be counted, or there is a first entry that cannot. -/
theorem brings_or_spills (small : b.Fits fun _ => 0) (deposits : List (Deposit b.length)) :
    (∃ total, Brings deposits total ∧ b.Fits total) ∨
      ∃ before total d after, deposits = before ++ d :: after ∧ Brings before total ∧
        b.Fits total ∧ b.Spills total d := by
  induction deposits using List.reverseRecOn with
  | nil => exact .inl ⟨_, .nil, small⟩
  | append_singleton deposits d ih =>
    rcases ih with ⟨total, brings, fits⟩ | ⟨before, total, first, after, rfl, brings⟩
    · by_cases spills : b.Spills total d
      · exact .inr ⟨deposits, total, d, [], rfl, brings, fits, spills⟩
      · obtain ⟨n, weighs, room⟩ := not_not.mp spills
        refine .inl ⟨_, brings.snoc weighs, fun i inside => ?_⟩
        have := fits i inside
        by_cases here : i = d.slot
        · simp only [here, if_pos]
          omega
        · simp only [if_neg here]
          omega
    · exact .inr ⟨before, total, first, after ++ [d], by simp, brings⟩

/-! ### After the turn -/

/-- The bins `c` come from `b` by entries, merges and moves of which one keeps a slot. -/
inductive Continues (b : Bins) : Bins → Prop
  | refl : Continues b b
  | record {c : Bins} (i : Nat) (weight sample : Option Float) :
    Continues b c → Continues b (c.record i weight sample)
  | addFrom {c : Bins} (i : Nat) (other : Bins) (j : Nat) :
    Continues b c → Continues b (c.addFrom i other j)
  | addAll {c : Bins} (other : Bins) : Continues b c → Continues b (c.addAll other)
  | scale {c scaled : Bins} {factor : Float} :
    Continues b c → c.scale factor = .ok scaled → Continues b scaled
  | gather {c : Bins} {length p i : Nat} {target : Nat → Option Nat} :
    Continues b c → p < c.length → target p = some i → Continues b (c.gather length target)

theorem turned_addFrom (turned : b.turned = true) (i : Nat) (other : Bins) (j : Nat) :
    (b.addFrom i other j).turned = true := by
  cases b with
  | int | double | atomicInt | weight | mean | weightedMean => contradiction
  | unlimited u =>
    cases other with
    | int | double | atomicInt | weight | mean | weightedMean => exact turned
    | unlimited v => exact (Unlimited.addFrom_of_spills (.inl turned)).1

theorem turned_record (turned : b.turned = true) (i : Nat) (weight sample : Option Float) :
    (b.record i weight sample).turned = true := by
  cases b with
  | int | double | atomicInt | weight | mean | weightedMean => contradiction
  | unlimited u =>
    cases u with
    | counts => contradiction
    | reals => rfl

theorem turned_addAll (turned : b.turned = true) (other : Bins) :
    (b.addAll other).turned = true :=
  addAll_of_addFrom (P := fun out => out.turned = true)
    (fun _ i j already => turned_addFrom already i other j) turned

theorem turned_scale (turned : b.turned = true) {factor : Float} (done : b.scale factor = .ok c) :
    c.turned = true := by
  cases b with
  | int | double | atomicInt | weight | mean | weightedMean => contradiction
  | unlimited u =>
    cases done
    rfl

/-- A sum of weights that is sent somewhere turns the slots there. -/
theorem turned_gather (turned : b.turned = true) {p i : Nat} (below : p < b.length)
    {target : Nat → Option Nat} (sent : target p = some i) (length : Nat) :
    (b.gather length target).turned = true := by
  have free := kind_of_turned turned
  obtain ⟨before, after, cut⟩ := List.append_of_mem (List.mem_range.mpr below)
  rw [gather_eq_foldl, cut, List.foldl_append, List.foldl_cons]
  refine foldl_send_of_addFrom (P := fun out => out.turned = true)
    (fun _ i j already => turned_addFrom already i b j) ?_ after
  rw [send, sent]
  have kind : (before.foldl (b.send target) (empty b.kind length)).kind = b.kind :=
    (length_kind_foldl_send ..).2.trans (kind_empty ..)
  exact (addFrom_of_spills _ free kind (.inr (.inl ((isReal_get free p).trans turned)))).1

theorem Continues.turned (continues : Continues b c) (turned : b.turned = true) :
    c.turned = true := by
  induction continues with
  | refl => exact turned
  | record i weight sample _ ih => exact turned_record ih i weight sample
  | addFrom i other j _ ih => exact turned_addFrom ih i other j
  | addAll other _ ih => exact turned_addAll ih other
  | scale _ done ih => exact turned_scale ih done
  | gather _ below sent ih => exact turned_gather ih below sent _

/-! ### Merges -/

theorem total_filter_le (b : Bins) (js : List Nat) (keep : Nat → Bool) :
    b.total (js.filter keep) ≤ b.total js := by
  induction js with
  | nil => exact Nat.le_refl _
  | cons j js ih =>
    have split : b.total (j :: js) = (b.get j).tally + b.total js := rfl
    by_cases kept : keep j = true
    · rw [List.filter_cons_of_pos kept, split]
      exact Nat.add_le_add_left ih _
    · rw [List.filter_cons_of_neg kept, split]
      exact Nat.le_trans ih (Nat.le_add_left ..)

/-- A gather whose totals are words is exact. -/
theorem gather_counts (free : b.kind = .unlimited) (whole : b.turned = false) {length : Nat}
    {target : Nat → Option Nat} (lands : ∀ p < b.length, ∀ i, target p = some i → i < length)
    (fits : ∀ i < length, b.total (sources target b.length i) < 2 ^ 64) {i : Nat}
    (below : i < length) :
    (b.gather length target).get i = .count (b.total (sources target b.length i)) := by
  have count (p : Nat) : (b.get p).isReal = false := (isReal_get free p).trans whole
  have stays (p : Nat) (_ : p < b.length) : ¬ b.Turns (sources target b.length) p := by
    rintro ⟨i, among, real | large⟩
    · exact Bool.false_ne_true ((count p).symm.trans real)
    · obtain ⟨within, sent⟩ := mem_sources.mp among
      have small := total_filter_le b (sources target b.length i) fun q => decide (q ≤ p)
      have := fits i (lands p within i sent)
      omega
  exact (gathered_counts free lands (Nat.le_refl _) stays).2 i below

/-- So is a sum of bins. -/
theorem addAll_counts (free : b.kind = .unlimited) (whole : b.turned = false)
    (other : c.kind = .unlimited) (others : c.turned = false)
    (fits : ∀ i < min b.length c.length, b.tally i + c.tally i < 2 ^ 64) {i : Nat}
    (below : i < b.length) :
    (b.addAll c).get i = .count (b.tally i + if i < c.length then c.tally i else 0) := by
  have step (m : Nat) (within : m ≤ min b.length c.length) :
      ∃ out, (List.range m).foldl (fun out j => out.addFrom j c j) b = out ∧
        out.kind = b.kind ∧ out.length = b.length ∧ out.turned = false ∧
        ∀ k, out.get k = .count (b.tally k + if k < m then c.tally k else 0) := by
    induction m with
    | zero => exact ⟨b, rfl, rfl, rfl, whole, get_eq_count_tally free whole⟩
    | succ m ih =>
      obtain ⟨out, folded, kind, long, unturned, counts⟩ := ih (by omega)
      refine ⟨out.addFrom m c m, ?_, ?_, ?_, ?_⟩
      · rw [List.range_succ, List.foldl_append, folded]
        rfl
      · rw [kind_addFrom, kind]
      · rw [length_addFrom, long]
      have held : (out.get m).tally = b.tally m := by
        rw [counts, if_neg (Nat.lt_irrefl m)]
        rfl
      obtain ⟨unturned, added⟩ := addFrom_of_fits out (b := c) (i := m) (j := m) other
        (kind.trans (free.trans other.symm)) unturned ((isReal_get other m).trans others)
        (by omega) (held ▸ fits m (by omega))
      refine ⟨unturned, fun k => ?_⟩
      rw [added, counts]
      change Cell.count (b.tally k + (if k < m then c.tally k else 0) +
        if k = m then c.tally m else 0) = _
      congr 1
      rcases Nat.lt_trichotomy k m with before | rfl | behind
      · rw [if_pos before, if_neg (by omega), if_pos (by omega), Nat.add_zero]
      · rw [if_neg (Nat.lt_irrefl k), if_pos rfl, if_pos (Nat.lt_succ_self k), Nat.add_zero]
      · rw [if_neg (by omega), if_neg (by omega), if_neg (by omega), Nat.add_zero]
  obtain ⟨out, folded, _, _, _, counts⟩ := step _ (Nat.le_refl _)
  have inside : i < min b.length c.length ↔ i < c.length := by omega
  rw [addAll, folded, counts]
  simp only [inside]

/-! ### The counter as a whole -/

/-- The bins count exactly while the numbers are words, and sum weights from then on. -/
structure CountsExactly (b : Bins) : Prop where
  counts : ∀ {deposits : List (Deposit b.length)} {total : Nat → Nat}, Brings deposits total →
    b.Fits total → ∀ i < b.length, (b.recordAll deposits).get i = .count (b.tally i + total i)
  turns : ∀ {deposits : List (Deposit b.length)} {total : Nat → Nat} {d : Deposit b.length},
    Brings deposits total → b.Fits total → b.Spills total d → ∀ i < b.length,
      (b.recordAll (deposits ++ [d])).get i =
        .real (if i = d.slot then ofNat (b.tally i + total i) + d.weight.getD 1
          else ofNat (b.tally i + total i))
  stays : ∀ {deposits : List (Deposit b.length)} {total : Nat → Nat} {d : Deposit b.length},
    Brings deposits total → b.Fits total → b.Spills total d → ∀ {later : Bins},
      Continues (b.recordAll (deposits ++ [d])) later → ∀ i, (later.get i).isReal = true
  /-- Every run is of one of these two forms. -/
  covers : (b.Fits fun _ => 0) → ∀ deposits : List (Deposit b.length),
    (∃ total, Brings deposits total ∧ b.Fits total) ∨
      ∃ before total d after, deposits = before ++ d :: after ∧ Brings before total ∧
        b.Fits total ∧ b.Spills total d
  gathers : ∀ {length : Nat} {target : Nat → Option Nat},
    (∀ p < b.length, ∀ i, target p = some i → i < length) →
    (∀ i < length, b.total (sources target b.length i) < 2 ^ 64) →
      ∀ i < length, (b.gather length target).get i = .count (b.total (sources target b.length i))
  adds : ∀ {c : Bins}, c.kind = .unlimited → c.turned = false →
    (∀ i < min b.length c.length, b.tally i + c.tally i < 2 ^ 64) →
      ∀ i < b.length, (b.addAll c).get i = .count (b.tally i + if i < c.length then c.tally i else 0)

/-- Unlimited counters that have not turned count exactly, at every width, and
an addition ends after four promotions at most. -/
theorem countsExactly (free : b.kind = .unlimited) (whole : b.turned = false) :
    b.CountsExactly ∧ ∀ (u : Unlimited) (i n : Nat),
      (∃ k ≤ 4, Unlimited.Retries i n k u (u.addCount i n)) ∧
        ∀ {k : Nat} {v : Unlimited}, Unlimited.Retries i n k u v → v = u.addCount i n where
  left :=
    { counts := fun brings fits => (recordAll_counts free whole brings fits).2
      turns := fun brings fits spills => (recordAll_turns free whole brings fits spills).2
      stays := fun {_ _ _} brings fits spills {later} continues i => by
        have turned := continues.turned (recordAll_turns free whole brings fits spills).1
        rw [isReal_get (kind_of_turned turned), turned]
      covers := brings_or_spills
      gathers := fun lands fits _ below => gather_counts free whole lands fits below
      adds := fun other others fits _ below => addAll_counts free whole other others fits below }
  right u i n := ⟨u.exists_retries i n, Unlimited.Retries.eq_addCount⟩

theorem countsExactly_pair : (empty .unlimited 2).CountsExactly ∧ ∀ (u : Unlimited) (i n : Nat),
    (∃ k ≤ 4, Unlimited.Retries i n k u (u.addCount i n)) ∧
      ∀ {k : Nat} {v : Unlimited}, Unlimited.Retries i n k u v → v = u.addCount i n :=
  countsExactly rfl rfl

end Bins
end Binning
