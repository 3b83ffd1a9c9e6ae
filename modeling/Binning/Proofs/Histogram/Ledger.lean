import Binning.Histogram.Reshape
import Binning.Proofs.Axis.Equality
import Binning.Proofs.Binary64.Whole
import Binning.Proofs.Histogram.Reshape
import Binning.Proofs.Histogram.Totals

/-! Ledgers of whole counts. Numbers of entries are written down with the indices of
their cell, and a cell holds the balance of its indices as far as its counter goes.
It goes on doing so when axes grow, when an entry is counted and when the contents of
another histogram are added. -/
namespace Binning

namespace Binary64

/-- The number itself, where it is whole and not below zero. -/
def whole (x : Float) : Nat :=
  match parts? x with
  | some p => (p.units / oneUnits).toNat
  | none => 0

theorem Denotes.whole {x : Float} {i : Int} (denotes : Denotes x i) : whole x = i.toNat := by
  obtain ⟨p, parts, units⟩ := denotes
  have positive : (oneUnits : Int) ≠ 0 := Int.ne_of_gt oneUnits_pos'
  rw [Binary64.whole, parts]
  exact congrArg Int.toNat (units ▸ Int.mul_ediv_cancel i positive)

end Binary64

/-- An entry adds its weight as far as it is a word. -/
theorem amount_eq {kind : StorageKind} (integral : kind.isIntegral = true)
    {weight sample : Option Float} (admitted : kind.checkEntry weight sample = .ok ()) :
    amount weight = min Word64.maxUnsigned (Binary64.whole (weight.getD 1)) := by
  have whole : ∃ i, Binary64.Denotes (weight.getD 1) i := by
    cases weight with
    | none => exact ⟨1, Binary64.denotes_one⟩
    | some w =>
      have taken := ((StorageKind.checkEntry_eq_ok integral).mp admitted).2 w rfl
      exact Binary64.exists_denotes_of_isWhole taken.2
  obtain ⟨i, denotes⟩ := whole
  rw [amount, denotes.toUnsigned, denotes.whole]
  rfl

/-- Numbers of entries, each with the indices of its cell. -/
abbrev Ledger := List (List Int × Nat)

namespace Ledger

/-- The number of entries at some indices. -/
def balance (ledger : Ledger) (indices : List Int) : Nat :=
  (ledger.map fun credit => if credit.1 = indices then credit.2 else 0).sum

def cells (ledger : Ledger) : List (List Int) := ledger.map Prod.fst

def moved (move : List Int → List Int) (ledger : Ledger) : Ledger := ledger.map (Prod.map move id)

/-- Every number as far as it is a word. -/
def capped (ledger : Ledger) : Ledger := ledger.map (Prod.map id (min Word64.maxUnsigned))

variable {ledger credits : Ledger} {move : List Int → List Int} {is js : List Int}

@[simp] theorem balance_cons {credit : List Int × Nat} : balance (credit :: ledger) js =
    (if credit.1 = js then credit.2 else 0) + balance ledger js := List.sum_cons

@[simp] theorem balance_append :
    balance (ledger ++ credits) js = balance ledger js + balance credits js := by
  rw [balance, List.map_append, List.sum_append]
  rfl

@[simp] theorem moved_cons {credit : List Int × Nat} :
    moved move (credit :: ledger) = (move credit.1, credit.2) :: moved move ledger := rfl

@[simp] theorem capped_cons {credit : List Int × Nat} : capped (credit :: ledger) =
    (credit.1, min Word64.maxUnsigned credit.2) :: capped ledger := rfl

@[simp] theorem cells_append : cells (ledger ++ credits) = cells ledger ++ cells credits :=
  List.map_append

@[simp] theorem cells_moved : cells (moved move ledger) = (cells ledger).map move := by
  simp [cells, moved]

@[simp] theorem cells_capped : cells (capped ledger) = cells ledger := by
  simp [cells, capped]

@[simp] theorem capped_append : capped (ledger ++ credits) = capped ledger ++ capped credits :=
  List.map_append

theorem capped_moved : capped (moved move ledger) = moved move (capped ledger) := by
  simp [capped, moved]

theorem moved_eq_self (still : ∀ is ∈ cells ledger, move is = is) : moved move ledger = ledger := by
  refine (List.map_congr_left fun credit among => ?_).trans (List.map_id ledger)
  exact Prod.ext (still credit.1 (List.mem_map_of_mem among)) rfl

theorem balance_eq_zero (apart : js ∉ cells ledger) : balance ledger js = 0 := by
  induction ledger with
  | nil => rfl
  | cons credit ledger ih =>
    obtain ⟨first, apart⟩ := List.ne_and_not_mem_of_not_mem_cons apart
    rw [balance_cons, if_neg first.symm, ih apart]

/-- Where only one cell of the ledger is moved to, its balance is moved there. -/
theorem balance_moved (apart : ∀ ks ∈ cells ledger, move ks = move is → ks = is) :
    balance (moved move ledger) (move is) = balance ledger is := by
  induction ledger with
  | nil => rfl
  | cons credit ledger ih =>
    obtain ⟨first, apart⟩ := List.forall_mem_cons.mp apart
    have same : move credit.1 = move is ↔ credit.1 = is := ⟨first, congrArg move⟩
    rw [moved_cons, balance_cons, balance_cons, ih apart]
    exact congrArg (· + _) (if_congr same rfl rfl)

theorem balance_le_moved : balance ledger is ≤ balance (moved move ledger) (move is) := by
  induction ledger with
  | nil => exact Nat.le_refl _
  | cons credit ledger ih =>
    rw [moved_cons, balance_cons, balance_cons]
    by_cases here : credit.1 = is
    · rw [if_pos here, if_pos (congrArg move here)]
      exact Nat.add_le_add_left ih _
    · rw [if_neg here, Nat.zero_add]
      exact Nat.le_add_left_of_le ih

theorem balance_capped_le : balance (capped ledger) js ≤ balance ledger js := by
  induction ledger with
  | nil => exact Nat.le_refl _
  | cons credit ledger ih =>
    rw [capped_cons, balance_cons, balance_cons]
    refine Nat.add_le_add ?_ ih
    split
    · exact Nat.min_le_right ..
    · exact Nat.le_refl _

/-- Capping the numbers one by one does not change what is left below the cap. -/
theorem min_balance_capped :
    min Word64.maxUnsigned (balance (capped ledger) js) =
      min Word64.maxUnsigned (balance ledger js) := by
  induction ledger with
  | nil => rfl
  | cons credit ledger ih =>
    rw [capped_cons, balance_cons, balance_cons]
    split <;> omega

theorem balance_capped (small : balance ledger js < 2 ^ 64) :
    balance (capped ledger) js = balance ledger js := by
  have least : balance (capped ledger) js ≤ balance ledger js := balance_capped_le
  have same : min _ (balance (capped ledger) js) = min _ (balance ledger js) := min_balance_capped
  unfold Word64.maxUnsigned at same
  omega

/-- What a counter holds grows with its balance until it starts again. -/
theorem hold_balance_le {kind : StorageKind} (larger : balance ledger is ≤ balance credits js)
    (room : kind = .int ∨ balance credits js < 2 ^ 64) :
    kind.hold (balance (capped ledger) is) ≤ kind.hold (balance (capped credits) js) := by
  rcases room with rfl | small
  · change min _ _ ≤ min _ _
    rw [min_balance_capped, min_balance_capped]
    exact min_le_min_left _ larger
  · have smaller := Nat.lt_of_le_of_lt larger small
    rw [balance_capped small, balance_capped smaller, kind.hold_of_lt small,
      kind.hold_of_lt smaller]
    exact larger

end Ledger

namespace Histogram

variable {r : Registry} {h : Histogram} {ledger : Ledger} {is js : List Int}

/-- The contents of whole counts as a ledger. -/
def holdings (h : Histogram) : Ledger :=
  (List.range h.bins.length).map fun p => (h.indicesAt p, h.bins.tally p)

theorem Sound.balance_holdings (sound : h.Sound) (has : h.Addresses js) :
    h.holdings.balance js = h.bins.tally (h.place js) := by
  have sum : h.holdings.balance js = ∑ p ∈ Finset.range h.bins.length,
      if h.indicesAt p = js then h.bins.tally p else 0 := by
    rw [Ledger.balance, holdings, List.map_map]
    rfl
  rw [sum, Finset.sum_eq_single_of_mem (h.place js) (Finset.mem_range.mpr (sound.place_lt has))]
  · rw [if_pos (sound.indicesAt_place has)]
  · intro p among other
    rw [if_neg]
    rintro rfl
    exact other (sound.place_indicesAt (Finset.mem_range.mp among)).symm

/-- Holdings are words. -/
theorem Sound.balance_capped_holdings (sound : h.Sound)
    (integral : h.bins.kind.isIntegral = true) (has : h.Addresses js) :
    h.holdings.capped.balance js = h.bins.tally (h.place js) := by
  have balance := sound.balance_holdings has
  rw [Ledger.balance_capped (balance ▸ sound.tally_lt integral (h.place js)), balance]

/-- What a placed entry adds, unless its indices have no slot. -/
def credit (h : Histogram) (placements : List Axis.Placement) (weight : Option Float) : Ledger :=
  if h.Addresses (placements.map (·.index)) then
    [(placements.map (·.index), Binary64.whole (weight.getD 1))]
  else []

theorem addresses_of_mem_credit {placements : List Axis.Placement} {weight : Option Float}
    (among : js ∈ (h.credit placements weight).cells) : h.Addresses js := by
  unfold credit at among
  split at among
  next has =>
    rw [List.mem_singleton.mp among]
    exact has
  next => contradiction

theorem credit_of_bareAxes {other : Histogram} (same : other.bareAxes = h.bareAxes)
    (placements : List Axis.Placement) (weight : Option Float) :
    other.credit placements weight = h.credit placements weight := by
  have addresses (is : List Int) : other.Addresses is ↔ h.Addresses is := by
    rw [Addresses, Addresses, same]
  exact if_congr (addresses _) rfl rfl

theorem balance_credit (placements : List Axis.Placement) (weight : Option Float)
    (has : h.Addresses js) : (h.credit placements weight).capped.balance js =
      if js = placements.map (·.index) then
        min Word64.maxUnsigned (Binary64.whole (weight.getD 1))
      else 0 := by
  unfold credit
  split
  next => exact (Ledger.balance_cons ..).trans (if_congr eq_comm rfl rfl)
  next nowhere =>
    rw [if_neg]
    · rfl
    · rintro rfl
      exact nowhere has

/-- Every cell of the ledger has a slot, and every slot holds the balance of its
cell as far as its counter goes. -/
structure Posted (h : Histogram) (ledger : Ledger) : Prop where
  addressed : ∀ js ∈ ledger.cells, h.Addresses js
  held : ∀ js, h.Addresses js →
    h.bins.tally (h.place js) = h.bins.kind.hold (ledger.capped.balance js)

theorem Sound.posted_holdings (sound : h.Sound) (integral : h.bins.kind.isIntegral = true) :
    Posted h h.holdings where
  addressed := by
    intro js among
    obtain ⟨_, entry, rfl⟩ := List.mem_map.mp among
    obtain ⟨p, below, rfl⟩ := List.mem_map.mp entry
    exact sound.addresses_indicesAt (List.mem_range.mp below)
  held := by
    intro js has
    rw [sound.balance_capped_holdings integral has,
      StorageKind.hold_of_lt _ (sound.tally_lt integral (h.place js))]

/-- A histogram that can be reached, and a ledger that it holds. -/
structure Audited (h : Histogram) (ledger : Ledger) : Prop where
  reachable : h.Reachable
  posted : h.Posted ledger

theorem Reachable.audited (reachable : h.Reachable) (integral : h.storage.kind.isIntegral = true) :
    h.Audited h.holdings :=
  ⟨reachable, reachable.sound.posted_holdings (reachable.sound.kind ▸ integral)⟩

namespace Posted
variable (posted : Posted h ledger) (sound : h.Sound) (integral : h.bins.kind.isIntegral = true)
include posted sound integral

theorem grow (keeps : r.KeepsShape) {grown : Histogram} {placements : List Axis.Placement}
    {coords : List Coord} (located : h.locate coords = .ok placements)
    (grows : h.grow r placements = .ok grown) (allocated : grown.Allocated) :
    Posted grown (ledger.moved (carry h.bareAxes placements grown.bareAxes)) := by
  obtain ⟨old, new⟩ := sound.grow_contents keeps located grows allocated
    (Bins.not_unlimited_of_isIntegral integral)
  obtain ⟨routes, placed, _⟩ := grow_eq_ok located grows
  have kind := kind_of_grow located grows
  constructor
  case addressed =>
    rw [Ledger.cells_moved]
    exact List.forall_mem_map.mpr fun is among => (old is (posted.addressed is among)).1
  case held =>
    intro js has
    rw [Ledger.capped_moved, kind]
    by_cases carried : ∃ is, h.Addresses is ∧ carry h.bareAxes placements grown.bareAxes is = js
    · obtain ⟨is, addressed, rfl⟩ := carried
      rw [Ledger.balance_moved, ← posted.held is addressed, Bins.tally, (old is addressed).2,
        Bins.get_eq_count integral,
        StorageKind.tally_merge_zero integral (sound.tally_lt integral _)]
      intro ks among same
      rw [Ledger.cells_capped] at among
      exact placed.carry_inj keeps sound.made sound.fits_classed (posted.addressed ks among)
        addressed same
    · have unread : ∀ is, h.Addresses is → carry h.bareAxes placements grown.bareAxes is ≠ js :=
        fun is addressed same => carried ⟨is, addressed, same⟩
      rw [Ledger.balance_eq_zero, Bins.tally, new js has unread, StorageKind.tally_zero integral,
        StorageKind.hold_of_lt _ (by decide)]
      rw [Ledger.cells_moved, Ledger.cells_capped]
      rintro among
      obtain ⟨is, entry, same⟩ := List.mem_map.mp among
      exact unread is (posted.addressed is entry) same

theorem enter {placements : List Axis.Placement} (same : placements.length = h.rank)
    {weight sample : Option Float} (admitted : h.bins.kind.checkEntry weight sample = .ok ()) :
    Posted { h with bins := h.enter placements weight none }
      (ledger ++ h.credit placements weight) := by
  constructor
  case addressed =>
    intro js among
    rw [Ledger.cells_append, List.mem_append] at among
    rcases among with before | now
    · exact posted.addressed js before
    · exact addresses_of_mem_credit now
  case held =>
    intro js (has : h.Addresses js)
    have held := posted.held js has
    have entered := sound.tally_enter integral same weight has
    change (h.enter placements weight none).tally (h.place js) = _
    rw [entered, kind_enter, Ledger.capped_append, Ledger.balance_append,
      balance_credit placements weight has, held]
    split
    · rw [StorageKind.hold_hold_add, amount_eq integral admitted]
    · rfl

/-- What is added is all that the cells of the other histogram have received. -/
theorem add {other total : Histogram} {credits : Ledger} (others : other.Sound)
    (stock : Posted other credits) (done : h.add other = .ok total) :
    Posted total (ledger ++ credits) := by
  obtain ⟨axes, storage, rfl⟩ := add_eq_ok.mp done
  have slots := ClassedAxis.sameSlots_of_beq axes
  have kind : other.bins.kind = h.bins.kind := by
    rw [← others.kind, ← sound.kind, storage]
  have length : other.bins.length = h.bins.length := by
    rw [others.length, sound.length]
    exact congrArg Layout.volume (Axis.extents_of_sameSlots slots).symm
  constructor
  case addressed =>
    intro js among
    rw [Ledger.cells_append, List.mem_append] at among
    rcases among with before | now
    · exact posted.addressed js before
    · exact (Axis.addresses_of_sameSlots slots).mpr (stock.addressed js now)
  case held =>
    intro js has
    have there : other.Addresses js := (Axis.addresses_of_sameSlots slots).mp has
    have place : other.place js = h.place js := (Axis.place_of_sameSlots slots js).symm
    have found := stock.held js there
    rw [place, kind] at found
    change (h.bins.addAll other.bins).tally (h.place js) = _
    rw [Bins.tally_addAll integral kind length (sound.place_lt has), Bins.kind_addAll,
      posted.held js has, found, StorageKind.hold_hold_add, StorageKind.hold_add_hold,
      Ledger.capped_append, Ledger.balance_append]

end Posted
end Histogram
end Binning
