import Binning.Proofs.Histogram.Effect
import Binning.Proofs.Histogram.Summing
import Binning.Proofs.Storage.Entries

/-! Totals of whole counts. The total is the number of entries in the cells that
it covers, held as one count. Growth moves the cells without changing their number
of entries, and every way to sum over all cells takes each of them once. -/
namespace Binning

/-- Every index is that of a bin in range, or of a flow bin if those are counted. -/
def Axis.Counted (axes : List Axis) (flow : Bool) (indices : List Int) : Prop :=
  List.Forall₂ (fun a i => a.Within 0 a.size flow flow i) axes indices

instance (axes : List Axis) (flow : Bool) (indices : List Int) :
    Decidable (Axis.Counted axes flow indices) := inferInstanceAs (Decidable (List.Forall₂ ..))

theorem Reduction.isSome_sendAll_cons (route : Route) (routes : List Route) (s : Nat)
    (slots : List Nat) : (sendAll (route :: routes) (s :: slots)).isSome = true ↔
      (route.send s).isSome = true ∧ (sendAll routes slots).isSome = true := by
  rw [sendAll]
  cases route.send s <;> cases sendAll routes slots <;> simp

/-- Where no axis drops a slot, no tuple is dropped. -/
theorem Reduction.isSome_sendAll {axes : List Axis} {routes : List Route} {slots : List Nat}
    (sends : List.Forall₂ (fun a route => ∀ s < a.extent, (route.send s).isSome = true) axes routes)
    (inside : Layout.Inside (axes.map Axis.extent) slots) :
    (sendAll routes slots).isSome = true := by
  induction sends generalizing slots with
  | nil => rfl
  | cons first _ ih =>
    cases inside with
    | cons below inside => exact (isSome_sendAll_cons ..).mpr ⟨first _ below, ih inside⟩

theorem Route.isSome_send_fold (admits : Nat → Bool) (s : Nat) :
    ((fold admits).send s).isSome = true ↔ (fold admits).send s = some none := by
  simp only [send]
  split <;> simp

namespace Axis
variable {a : Axis} {axes : List Axis} {indices : List Int} {flow : Bool}

theorem Fits.within_of_representable (fits : a.Fits) {i : Int} (has : a.representable i = true) :
    a.Within 0 a.size true true i := by
  exact (Route.send_sum_iff fits has (Nat.zero_le _) (Nat.le_refl _)).mp
    (Route.send_sum_all fits (fits.slot_lt has))

@[simp] theorem counted_cons {i : Int} : Counted (a :: axes) flow (i :: indices) ↔
    a.Within 0 a.size flow flow i ∧ Counted axes flow indices := List.forall₂_cons

theorem counted_of_addresses (fits : ∀ a ∈ axes, a.Fits) (has : Addresses axes indices) :
    Counted axes true indices := by
  induction has with
  | nil => exact .nil
  | cons first _ ih =>
    obtain ⟨fit, fits⟩ := List.forall_mem_cons.mp fits
    exact .cons (fit.within_of_representable first) (ih fits)

theorem Fits.within_inner_iff (fits : a.Fits) {i : Int} :
    a.Within 0 a.size false false i ↔ a.InRange i := by
  unfold Within InRange
  rw [fits.beyond_eq]
  simp

theorem counted_inner_iff (fits : ∀ a ∈ axes, a.Fits) :
    Counted axes false indices ↔ List.Forall₂ InRange axes indices := by
  induction axes generalizing indices with
  | nil => exact List.forall₂_nil_left_iff.trans List.forall₂_nil_left_iff.symm
  | cons a axes ih =>
    obtain ⟨fit, fits⟩ := List.forall_mem_cons.mp fits
    unfold Counted at ih ⊢
    simp only [List.forall₂_cons_left_iff, fit.within_inner_iff, ih fits]

theorem addresses_of_counted_inner (fits : ∀ a ∈ axes, a.Fits)
    (counted : Counted axes false indices) : Addresses axes indices := by
  induction counted with
  | nil => exact .nil
  | cons first _ ih =>
    obtain ⟨fit, fits⟩ := List.forall_mem_cons.mp fits
    refine .cons ?_ (ih fits)
    obtain ⟨low, high⟩ := fit.within_inner_iff.mp first
    exact fit.representable_of_inRange low (fit.beyond_eq ▸ high)

/-- The routes of a total take the slots of the tuples that are counted. -/
theorem isSome_sendAll_sums (fits : ∀ a ∈ axes, a.Fits) (has : Addresses axes indices) :
    (Reduction.sendAll (axes.map fun a => .sum a 0 a.size flow flow)
      (slotsOf axes indices)).isSome = true ↔ Counted axes flow indices := by
  induction has with
  | nil => exact ⟨fun _ => .nil, fun _ => rfl⟩
  | @cons a i axes indices first _ ih =>
    obtain ⟨fit, fits⟩ := List.forall_mem_cons.mp fits
    have sends : (Route.sum a 0 a.size flow flow).send (a.slot i) = some none ↔
        a.Within 0 a.size flow flow i :=
      Route.send_sum_iff fit first (Nat.zero_le _) (Nat.le_refl _)
    rw [counted_cons, ← sends, ← ih fits]
    exact (Reduction.isSome_sendAll_cons ..).trans (and_congr_left' (Route.isSome_send_fold ..))

end Axis

namespace StorageKind
variable {kind : StorageKind} (integral : kind.isIntegral = true)
include integral

theorem tally_zero : kind.zero.tally = 0 := by
  cases kind <;> first | contradiction | rfl

theorem tally_merge_zero {n : Nat} (small : n < 2 ^ 64) :
    (kind.merge kind.zero (.count n)).tally = n := by
  have zero : kind.zero = .count 0 := by
    cases kind <;> first | contradiction | rfl
  rw [zero, merge_count, Nat.zero_add, kind.hold_of_lt small]
  rfl

end StorageKind

namespace Histogram
open Results

variable {h : Histogram} {flow : Bool}

/-- The number of entries in the bins in range, with the flow bins on request. -/
def entries (h : Histogram) (flow : Bool) : Nat :=
  ∑ p ∈ Finset.range h.bins.length,
    if Axis.Counted h.bareAxes flow (h.indicesAt p) then h.bins.tally p else 0

theorem Sound.sum_eq (sound : h.Sound) (integral : h.bins.kind.isIntegral = true) :
    h.sum flow = .count (h.bins.kind.hold (h.entries flow)) := by
  have counted : ∀ p < h.bins.length,
      Reduction.target h.extents [] (h.bareAxes.map fun a => .sum a 0 a.size flow flow) [] p =
        some 0 ↔ Axis.Counted h.bareAxes flow (h.indicesAt p) := by
    intro p below
    have inside := Layout.inside_tuple (sound.length ▸ below)
    have slots : Axis.slotsOf h.bareAxes (h.indicesAt p) = Layout.tuple h.extents p :=
      Axis.slotsOf_indicesOf sound.fits inside
    rw [← Axis.isSome_sendAll_sums sound.fits (sound.addresses_indicesAt below), slots]
    rw [Reduction.target, Option.map_eq_some_iff, Option.isSome_iff_exists]
    constructor
    · rintro ⟨sent, all, _⟩
      exact ⟨sent, all⟩
    · rintro ⟨sent, all⟩
      exact ⟨sent, all, rfl⟩
  have gathered : h.sum flow = (h.bins.gather 1 (Reduction.target h.extents []
      (h.bareAxes.map fun a => .sum a 0 a.size flow flow) [])).get 0 := rfl
  rw [gathered, Bins.get_eq_count (by simpa), Bins.tally_gather integral Nat.one_pos, entries]
  congr 2
  refine Finset.sum_congr rfl fun p among => ?_
  simp only [counted p (Finset.mem_range.mp among)]

/-! ### Growth -/

section
variable {r : Registry} {family : Family} {axes news : List ClassedAxis}
  {placements : List Axis.Placement} {routes : List Route} {coords : List Coord}

theorem within_carryIndex_iff {a new : Axis} {front : Nat} {i : Int} (fits : a.Fits)
    (large : a.size + front ≤ new.size) (has : a.representable i = true) :
    new.Within 0 new.size flow flow (carryIndex a new front i) ↔ a.Within 0 a.size flow flow i := by
  have cases := fits.representable_iff_cases.mp has
  unfold Axis.Within carryIndex
  cases flow <;> simp only [Bool.false_eq_true, and_false, and_true, or_false] <;> omega

/-- What is counted goes on to be counted after growth, and nothing else does. -/
theorem Placed.counted_carry_iff (keeps : r.KeepsShape)
    (placed : Placed r family axes placements news routes) (old : ∀ a ∈ axes, a.axis.Made)
    (fits : ∀ a ∈ axes, a.axis.Fits) {is : List Int}
    (has : Axis.Addresses (axes.map ClassedAxis.axis) is) (flow : Bool) :
    Axis.Counted (news.map ClassedAxis.axis) flow
        (carry (axes.map ClassedAxis.axis) placements (news.map ClassedAxis.axis) is) ↔
      Axis.Counted (axes.map ClassedAxis.axis) flow is := by
  induction placed generalizing is with
  | nil =>
    cases has
    exact Iff.rfl
  | cons located grows _ ih =>
    cases has with
    | cons first has =>
    obtain ⟨head, old⟩ := List.forall_mem_cons.mp old
    obtain ⟨fit, fits⟩ := List.forall_mem_cons.mp fits
    obtain ⟨_, size, _⟩ := shape_of_growAxis keeps head located grows
    rw [List.map_cons, List.map_cons, carry, Axis.counted_cons, Axis.counted_cons,
      ih old fits has, within_carryIndex_iff fit size first]

theorem kind_of_grow {grown : Histogram} (located : h.locate coords = .ok placements)
    (grows : h.grow r placements = .ok grown) : grown.bins.kind = h.bins.kind := by
  obtain ⟨_, _, parts⟩ := grow_eq_ok located grows
  rw [parts]
  exact Bins.kind_gather ..

theorem kind_of_record {after : Histogram} {weight sample : Option Float}
    (done : h.record r coords weight sample = .ok after) : after.bins.kind = h.bins.kind := by
  obtain ⟨_, _, grown, located, grows, rfl⟩ := record_eq_ok done
  refine (kind_enter (h := grown) ..).trans ?_
  rcases grows with ⟨rfl, _⟩ | grows
  · rfl
  · exact kind_of_grow located grows

theorem Sound.tally_lt (sound : h.Sound) (integral : h.bins.kind.isIntegral = true) (p : Nat) :
    h.bins.tally p < 2 ^ 64 :=
  sound.words integral p _ (Bins.get_eq_count integral p)

/-- Growth loses no entry and counts none twice. -/
theorem Sound.entries_grow (sound : h.Sound) (keeps : r.KeepsShape)
    (integral : h.bins.kind.isIntegral = true) {grown : Histogram}
    (located : h.locate coords = .ok placements) (grows : h.grow r placements = .ok grown)
    (allocated : grown.Allocated) (flow : Bool) : grown.entries flow = h.entries flow := by
  have grown_sound := sound.grow keeps located grows allocated
  obtain ⟨old, new⟩ := sound.grow_contents keeps located grows allocated
    (Bins.not_unlimited_of_isIntegral integral)
  obtain ⟨routes, placed, _⟩ := grow_eq_ok located grows
  let carried (p : Nat) : List Int := carry h.bareAxes placements grown.bareAxes (h.indicesAt p)
  have addressed : ∀ p < h.bins.length, h.Addresses (h.indicesAt p) :=
    fun p below => sound.addresses_indicesAt below
  have arrives : ∀ p < h.bins.length, grown.Addresses (carried p) :=
    fun p below => (old _ (addressed p below)).1
  symm
  apply Finset.sum_of_injOn fun p => grown.place (carried p)
  · -- no two cells are carried to one
    intro p left q right same
    have left := Finset.mem_range.mp left
    have right := Finset.mem_range.mp right
    have same := (grown_sound.place_inj (arrives p left) (arrives q right)).mp same
    have indices := placed.carry_inj keeps sound.made sound.fits_classed (addressed p left)
      (addressed q right) same
    rw [← sound.place_indicesAt left, indices, sound.place_indicesAt right]
  · intro p among
    have below := Finset.mem_range.mp among
    exact Finset.mem_coe.mpr (Finset.mem_range.mpr (grown_sound.place_lt (arrives p below)))
  · -- a cell to which none is carried is new
    intro q among apart
    have below := Finset.mem_range.mp among
    have empty := new (grown.indicesAt q) (grown_sound.addresses_indicesAt below) (by
      intro is has same
      refine apart ⟨h.place is, ?_, ?_⟩
      · exact Finset.mem_coe.mpr (Finset.mem_range.mpr (sound.place_lt has))
      · simp only [carried, sound.indicesAt_place has, same, grown_sound.place_indicesAt below])
    rw [grown_sound.place_indicesAt below] at empty
    rw [Bins.tally, empty, StorageKind.tally_zero integral, ite_self]
  · intro p among
    have below := Finset.mem_range.mp among
    have kept := (old _ (addressed p below)).2
    rw [sound.place_indicesAt below] at kept
    have counted := placed.counted_carry_iff keeps sound.made sound.fits_classed
      (addressed p below) flow
    have tally : grown.bins.tally (grown.place (carried p)) = h.bins.tally p := by
      rw [Bins.tally, kept, Bins.get_eq_count integral,
        StorageKind.tally_merge_zero integral (sound.tally_lt integral p)]
    rw [grown_sound.indicesAt_place (arrives p below), tally]
    exact if_congr counted.symm rfl rfl

end

/-! ### Entries -/

theorem entries_of_empty {kind : StorageKind} (integral : kind.isIntegral = true) {n : Nat}
    (started : h.bins = .empty kind n) (flow : Bool) : h.entries flow = 0 := by
  apply Finset.sum_eq_zero
  intro p _
  rw [started, Bins.tally, Bins.get_empty, StorageKind.tally_zero integral, ite_self]

theorem Sound.tally_le_entries (sound : h.Sound) {p : Nat} (below : p < h.bins.length) :
    h.bins.tally p ≤ h.entries true := by
  have counted : Axis.Counted h.bareAxes true (h.indicesAt p) :=
    Axis.counted_of_addresses sound.fits (sound.addresses_indicesAt below)
  have each := Finset.single_le_sum (s := Finset.range h.bins.length)
    (f := fun p => if Axis.Counted h.bareAxes true (h.indicesAt p) then h.bins.tally p else 0)
    (fun _ _ => Nat.zero_le _) (Finset.mem_range.mpr below)
  rwa [if_pos counted] at each

/-- A cell counts the entry if it is that of its indices. -/
theorem Sound.tally_enter (sound : h.Sound) (integral : h.bins.kind.isIntegral = true)
    {placements : List Axis.Placement} (same : placements.length = h.rank)
    (weight : Option Float) {js : List Int} (has : h.Addresses js) :
    (h.enter placements weight none).tally (h.place js) =
      if js = placements.map (·.index) then
        h.bins.kind.hold (h.bins.tally (h.place js) + amount weight)
      else h.bins.tally (h.place js) := by
  apply Bins.tally_of_get
  rw [sound.get_enter (Bins.not_unlimited_of_isIntegral integral) same weight none has,
    Bins.get_eq_count integral, StorageKind.enter_count]
  split <;> rfl

/-- One entry is counted once if its cell is, as long as there is room for it. -/
theorem Sound.entries_enter (sound : h.Sound) (integral : h.bins.kind.isIntegral = true)
    {placements : List Axis.Placement} (same : placements.length = h.rank)
    (room : h.entries true + 1 < 2 ^ 64) :
    { h with bins := h.enter placements none none }.entries flow = h.entries flow +
      if h.Addresses (placements.map (·.index)) ∧
        Axis.Counted h.bareAxes flow (placements.map (·.index)) then 1 else 0 := by
  generalize entry : placements.map (·.index) = indices
  have length : (h.enter placements none none).length = h.bins.length :=
    (sound.enter placements none none).length.trans sound.length.symm
  have cells : ∀ p < h.bins.length, (h.enter placements none none).tally p =
      h.bins.tally p + if h.indicesAt p = indices then 1 else 0 := by
    intro p below
    have entered := sound.tally_enter integral same none (sound.addresses_indicesAt below)
    rw [sound.place_indicesAt below, entry, amount_none] at entered
    have few := sound.tally_le_entries below
    rw [entered]
    split
    · exact StorageKind.hold_of_lt _ (by omega)
    · rfl
  have position : (∑ p ∈ Finset.range h.bins.length,
      if h.indicesAt p = indices ∧ Axis.Counted h.bareAxes flow indices then 1 else 0) =
        if h.Addresses indices ∧ Axis.Counted h.bareAxes flow indices then 1 else 0 := by
    by_cases counted : h.Addresses indices ∧ Axis.Counted h.bareAxes flow indices
    · rw [if_pos counted, Finset.sum_eq_single_of_mem (h.place indices)]
      · rw [if_pos ⟨sound.indicesAt_place counted.1, counted.2⟩]
      · exact Finset.mem_range.mpr (sound.place_lt counted.1)
      · intro p among apart
        rw [if_neg]
        rintro ⟨rfl, _⟩
        exact apart (sound.place_indicesAt (Finset.mem_range.mp among)).symm
    · rw [if_neg counted]
      apply Finset.sum_eq_zero
      intro p among
      rw [if_neg]
      rintro ⟨rfl, inside⟩
      exact counted ⟨sound.addresses_indicesAt (Finset.mem_range.mp among), inside⟩
  rw [entries, entries, ← position, ← Finset.sum_add_distrib]
  refine Finset.sum_congr (congrArg Finset.range length) fun p among => ?_
  have below : p < h.bins.length := Finset.mem_range.mp (length ▸ among)
  change (if Axis.Counted h.bareAxes flow (h.indicesAt p) then
    (h.enter placements none none).tally p else 0) = _
  rw [cells p below]
  by_cases here : h.indicesAt p = indices
  · subst here
    by_cases counted : Axis.Counted h.bareAxes flow (h.indicesAt p) <;> simp [counted]
  · simp [here]

theorem Sound.entries_record (sound : h.Sound) {r : Registry} (keeps : r.KeepsShape)
    (integral : h.bins.kind.isIntegral = true) {after : Histogram} {coords : List Coord}
    {placements : List Axis.Placement} (located : h.locate coords = .ok placements)
    (done : h.record r coords = .ok after) (allocated : after.Allocated)
    (room : h.entries true + 1 < 2 ^ 64) (flow : Bool) :
    after.entries flow = h.entries flow +
      if after.Addresses (placements.map (·.index)) ∧
        Axis.Counted after.bareAxes flow (placements.map (·.index)) then 1 else 0 := by
  obtain ⟨_, _, grown, same, grows, rfl⟩ := record_eq_ok done
  cases located.symm.trans same
  rcases grows with ⟨rfl, _⟩ | grows
  · exact sound.entries_enter integral (length_of_locate located) room
  · have moved := sound.entries_grow keeps integral located grows allocated
    have grown_sound := sound.grow keeps located grows allocated
    rw [← moved] at room ⊢
    exact grown_sound.entries_enter (kind_of_grow located grows ▸ integral)
      ((length_of_locate located).trans (rank_of_grow located grows).symm) room

/-! ### All cells -/

theorem Sound.entries_true (sound : h.Sound) :
    h.entries true = ∑ p ∈ Finset.range h.bins.length, h.bins.tally p := by
  refine Finset.sum_congr rfl fun p among => ?_
  have has := sound.addresses_indicesAt (Finset.mem_range.mp among)
  rw [if_pos (Axis.counted_of_addresses sound.fits has)]

theorem forall₂_projections {P : Axis → Route → Prop} {axes : List Axis} (kept : List Nat)
    (stays : ∀ a ∈ axes, P a (.identity a)) (goes : ∀ a ∈ axes, P a (.sum a 0 a.size true true)) :
    List.Forall₂ P axes (projections axes kept) := by
  refine List.forall₂_iff_get.mpr ⟨List.length_mapIdx.symm, fun d below _ => ?_⟩
  have among : axes[d] ∈ axes := List.getElem_mem below
  simp only [projections, List.get_eq_getElem, List.getElem_mapIdx]
  split
  · exact stays _ among
  · exact goes _ among

/-- Where no axis drops a slot, the new cells hold all entries together. -/
theorem Sound.hold_sum_gathered (sound : h.Sound) (integral : h.bins.kind.isIntegral = true)
    {routes : List Route} (order : List Nat)
    (lands : List.Forall₂ (fun a route => Route.Lands a route) h.bareAxes routes)
    (sends : List.Forall₂ (fun a route => ∀ s < a.extent, (route.send s).isSome = true)
      h.bareAxes routes) :
    h.bins.kind.hold (∑ i ∈ Finset.range (h.gathered routes order).length,
        (h.gathered routes order).tally i) = h.bins.kind.hold (h.entries true) := by
  rw [sound.entries_true, length_gathered]
  apply Bins.hold_sum_tally_gather integral
  intro p below
  rw [sound.length] at below
  have all := Reduction.isSome_sendAll sends (Layout.inside_tuple below)
  obtain ⟨i, sent⟩ := Option.isSome_iff_exists.mp (Option.isSome_map.trans all)
  exact ⟨i, Reduction.target_lt (Reduction.landsWithin_extents lands) below sent, sent⟩

/-- Projecting keeps the total of all cells. -/
theorem Sound.sum_project (sound : h.Sound) {r : Registry} (keeps : r.KeepsShape)
    (integral : h.bins.kind.isIntegral = true) {kept : List Nat} (some_kept : kept ≠ [])
    (checked : checkKept h.rank [] kept = .ok ()) {projected : Histogram}
    (done : h.project r kept = .ok projected) : projected.sum true = h.sum true := by
  have projected_sound := sound.project keeps done
  rw [project_of_checked some_kept checked] at done
  obtain ⟨_, bins, _⟩ := ofParts_eq_ok done
  have kind : projected.bins.kind = h.bins.kind := bins ▸ kind_gathered ..
  have lands : List.Forall₂ (fun a route => Route.Lands a route) h.bareAxes
      (projections h.bareAxes kept) :=
    forall₂_projections kept (fun _ _ => Route.lands_identity) fun _ _ => Route.lands_fold _
  have sends : List.Forall₂ (fun a route => ∀ s < a.extent, (route.send s).isSome = true) h.bareAxes
      (projections h.bareAxes kept) := by
    refine forall₂_projections kept (fun _ _ _ _ => rfl) fun a among s below => ?_
    rw [Route.send_sum_all (sound.fits a among) below]
    rfl
  rw [projected_sound.sum_eq (kind ▸ integral), sound.sum_eq integral, projected_sound.entries_true,
    kind, bins, sound.hold_sum_gathered integral kept lands sends]

/-! ### Expressions -/

/-- The entry sums the full range of the axis. -/
def SumsAll (a : Axis) (entry : Index) : Prop :=
  ∃ start stop, entry = .slice ⟨start, stop, some .sum⟩ ∧ Ranges a start stop 0 a.size

theorem route_of_sumsAll {a : Axis} (fits : a.Fits) {entry : Index} (all : SumsAll a entry) :
    entry.route a = .ok (.sum a 0 a.size true true) := by
  obtain ⟨start, stop, rfl, ranges⟩ := all
  have lo := bound_of_bounds fits ranges.start
  have hi := bound_of_bounds fits ranges.stop
  have some_bin : ¬ a.size ≤ 0 := Nat.not_le_of_lt ranges.lt
  simp only [Index.route, lo, hi, bind, Except.bind, if_neg some_bin, beq_self_eq_true]
  rfl

theorem expand_of_sumsAll {axes : List Axis} {entries : List Index}
    (all : List.Forall₂ SumsAll axes entries) : Index.expand entries axes.length = .ok entries := by
  have named : ∀ e ∈ entries, e.isEllipsis = false := by
    induction all with
    | nil => exact fun _ among => absurd among List.not_mem_nil
    | cons first _ ih =>
      obtain ⟨_, _, rfl, _⟩ := first
      exact List.forall_mem_cons.mpr ⟨rfl, ih⟩
  exact Index.expand_of_named named all.length_eq.symm

theorem routes_of_sumsAll {axes : List Axis} (fits : ∀ a ∈ axes, a.Fits) {entries : List Index}
    (all : List.Forall₂ SumsAll axes entries) :
    Index.routes axes entries = .ok (projections axes []) := by
  simp only [Index.routes, expand_of_sumsAll all, bind_eq_ok, mapError_eq_ok, mapM_eq_ok,
    projections_nil]
  refine ⟨entries, rfl, ?_⟩
  induction all with
  | nil => exact .nil
  | cons first _ ih =>
    obtain ⟨fit, fits⟩ := List.forall_mem_cons.mp fits
    exact .cons (route_of_sumsAll fit first) (ih fits)

/-- Summing every axis over its full range gives the total of all cells. -/
theorem Sound.index_of_sumsAll (sound : h.Sound) {r : Registry} {entries : List Index}
    (all : List.Forall₂ SumsAll h.bareAxes entries) :
    h.index r entries = .ok (.value (h.sum true)) := by
  have same : (projections h.bareAxes []).length = h.rank :=
    List.length_mapIdx.trans (length_bareAxes h)
  have none_stay : Reduction.stay (projections h.bareAxes []) = [] := by
    rw [projections_nil]
    exact List.filterMap_eq_nil_iff.mpr (by simp [Route.sum, Route.axis?])
  have places : Reduction.staying (projections h.bareAxes []) = [] := by
    apply List.filter_eq_nil_iff.mpr
    intro d _
    rw [projections_nil, List.getElem?_map]
    cases h.bareAxes[d]? <;> simp [Route.sum, Route.axis?]
  have total : h.sum true = (h.gathered (projections h.bareAxes []) []).get 0 := by
    rw [projections_nil]
    rfl
  rw [index_eq_bind, routes_of_sumsAll sound.fits all, total,
    gathered_staying sound.length same places]
  exact reduce_range_of_none same none_stay

end Histogram
end Binning
