import Binning.Proofs.Histogram.Failures
import Binning.Proofs.Storage.Entries
import Binning.Proofs.Storage.Equality

/-! The order of entries. While no axis grows, whether an entry is refused and where
it goes depend on nothing that an entry changes, and whole counts are the same in
whatever order they are added up. So a run may take its entries in any order, and
those without a weight from writers that share the histogram. -/
namespace Binning

/-- Two entries into whole counts may change places. -/
theorem Bins.record_comm {b : Bins} (integral : b.kind.isIntegral = true) (i j : Nat)
    (weight other : Option Float) :
    (b.record i weight none).record j other none = (b.record j other none).record i weight none := by
  refine eq_of_tally (by simpa) (by simp) (by simp) fun k _ => ?_
  simp only [tally_record, integral, kind_record, length_record]
  split_ifs
  · rw [StorageKind.hold_hold_add, StorageKind.hold_hold_add, Nat.add_right_comm]
  all_goals rfl

namespace Histogram
open Results

/-- An entry of a run: one with its weight, if it has any, or one from a writer that
shares the histogram with others. -/
inductive Filling where
  | alone (coords : List Coord) (weight : Option Float)
  | shared (coords : List Coord)

def pour (r : Registry) (h : Histogram) : Filling → Outcome
  | .alone coords weight => h.fill r coords weight
  | .shared coords => h.fillShared coords

/-- What is left after all entries of a run, and what each of them came to. -/
def pourAll (r : Registry) (h : Histogram) : List Filling → Histogram × List (Except Error Unit)
  | [] => (h, [])
  | f :: rest =>
    let poured := h.pour r f
    let (last, results) := pourAll r poured.state rest
    (last, poured.result :: results)

/-- Where an entry goes and with which weight, or why it is refused. -/
def judged (h : Histogram) : Filling → Except Error (List Axis.Placement × Option Float)
  | .alone coords weight => do
    (h.storage.kind.checkEntry weight none).mapError .capability
    let placements ← (h.locate coords).mapError .index
    return (placements, weight)
  | .shared coords => do
    if h.storage.kind ≠ .atomicInt then
      throw (.capability (.concurrentStorage h.storage.kind))
    let placements ← (h.locate coords).mapError .index
    return (placements, none)

/-- No axis grows, and the bins hold whole counts. -/
structure Steady (h : Histogram) : Prop where
  fixed : ∀ a ∈ h.axes, a.axis.options.growth = false
  kind : h.storage.kind = h.bins.kind
  integral : h.bins.kind.isIntegral = true

/-- The bins with an entry, if it is admitted. -/
def added (h : Histogram) (f : Filling) : Bins :=
  match h.judged f with
  | .ok (placements, weight) => h.enter placements weight none
  | .error _ => h.bins

variable {r : Registry} {h : Histogram} {f g : Filling} {fs gs : List Filling}

/-- The contents have no say in what is admitted. -/
theorem judged_of_bins (h : Histogram) (bins : Bins) (f : Filling) :
    { h with bins }.judged f = h.judged f := by
  cases f <;> rfl

theorem enter_comm (integral : h.bins.kind.isIntegral = true)
    (placements others : List Axis.Placement) (weight other : Option Float) :
    { h with bins := h.enter placements weight none }.enter others other none =
      { h with bins := h.enter others other none }.enter placements weight none := by
  have position (bins : Bins) (p : List Axis.Placement) :
      { h with bins }.position? p = h.position? p := rfl
  unfold enter
  simp only [position]
  cases h.position? placements with
  | none => rfl
  | some i =>
    cases h.position? others with
    | none => rfl
    | some j => exact Bins.record_comm integral i j weight other

theorem added_comm (integral : h.bins.kind.isIntegral = true) (f g : Filling) :
    { h with bins := h.added f }.added g = { h with bins := h.added g }.added f := by
  unfold added
  simp only [judged_of_bins]
  cases h.judged f with
  | error => cases h.judged g <;> rfl
  | ok =>
    cases h.judged g with
    | error => rfl
    | ok => exact enter_comm integral ..

namespace Steady
variable (steady : h.Steady)
include steady

theorem record_eq (coords : List Coord) (weight : Option Float) :
    h.record r coords weight none = (do
      let (placements, weight) ← h.judged (.alone coords weight)
      return { h with bins := h.enter placements weight none }) := by
  rw [record_eq_bind, judged]
  cases h.storage.kind.checkEntry weight none with
  | error => rfl
  | ok =>
  cases located : h.locate coords with
  | error => rfl
  | ok placements =>
    change h.roomFor r placements >>= _ = _
    rw [roomFor_of_fixed steady.fixed located]
    rfl

theorem recordShared_eq (coords : List Coord) :
    h.recordShared coords = (do
      let (placements, weight) ← h.judged (.shared coords)
      return { h with bins := h.enter placements weight none }) := by
  have none_grows : h.axes.find? (·.axis.options.growth) = none :=
    List.find?_eq_none.mpr fun a among => by simp [steady.fixed a among]
  rw [recordShared, none_grows, judged]
  by_cases other : h.storage.kind ≠ .atomicInt
  · simp only [if_pos other]
    rfl
  simp only [if_neg other]
  cases h.locate coords with
  | error => rfl
  | ok placements =>
    have kind := steady.kind.symm.trans (not_not.mp other)
    cases position : h.position? placements with
    | none =>
      simp only [Except.mapError, bind, Except.bind, pure, Except.pure, position, enter]
    | some j =>
      simp only [Except.mapError, bind, Except.bind, pure, Except.pure, position, enter,
        Bins.recordShared_of_atomicInt kind]

/-- An entry is added if it is admitted, and it has no other effect. -/
theorem pour_eq (f : Filling) :
    h.pour r f = ⟨{ h with bins := h.added f }, (fun _ => ()) <$> h.judged f⟩ := by
  have outcome : h.pour r f = .ofExcept h (do
      let (placements, weight) ← h.judged f
      return { h with bins := h.enter placements weight none }) := by
    cases f with
    | alone coords weight => exact congrArg (Outcome.ofExcept h) (steady.record_eq coords weight)
    | shared coords => exact congrArg (Outcome.ofExcept h) (steady.recordShared_eq coords)
  rw [outcome, added]
  cases h.judged f <;> rfl

theorem pour (f : Filling) : (h.pour r f).state.Steady := by
  rw [steady.pour_eq]
  have kind : (h.added f).kind = h.bins.kind := by
    unfold added
    split
    · exact kind_enter ..
    · rfl
  exact ⟨steady.fixed, steady.kind.trans kind.symm, kind ▸ steady.integral⟩

theorem result_pour (f g : Filling) :
    ((h.pour r f).state.pour r g).result = (h.pour r g).result := by
  rw [(steady.pour f).pour_eq, steady.pour_eq g, steady.pour_eq f]
  exact congrArg ((fun _ => ()) <$> ·) (judged_of_bins h _ g)

theorem pour_comm (f g : Filling) :
    ((h.pour r f).state.pour r g).state = ((h.pour r g).state.pour r f).state := by
  rw [(steady.pour f).pour_eq, (steady.pour g).pour_eq, steady.pour_eq, steady.pour_eq]
  exact congrArg (fun bins => { h with bins }) (added_comm steady.integral f g)

/-! ### Runs -/

/-- Each entry of a run comes to what it would come to by itself. -/
theorem results_pourAll (fs : List Filling) :
    (h.pourAll r fs).2 = fs.map fun f => (h.pour r f).result := by
  induction fs generalizing h with
  | nil => rfl
  | cons f fs ih =>
    rw [pourAll, List.map_cons]
    refine congrArg (List.cons _) ((ih (steady.pour f)).trans ?_)
    exact List.map_congr_left fun g _ => steady.result_pour f g

/-- A run leaves the same in any order. -/
theorem last_of_perm (perm : fs.Perm gs) : (h.pourAll r fs).1 = (h.pourAll r gs).1 := by
  induction perm generalizing h with
  | nil => rfl
  | cons f _ ih => exact ih (steady.pour f)
  | swap f g fs => exact congrArg (fun h => (h.pourAll r fs).1) (steady.pour_comm g f)
  | trans _ _ first second => exact (first steady).trans (second steady)

/-- A run changes the bins and nothing else. -/
theorem last_eq (fs : List Filling) :
    ∃ bins : Bins, bins.kind = h.bins.kind ∧ (h.pourAll r fs).1 = { h with bins } := by
  induction fs generalizing h with
  | nil => exact ⟨h.bins, rfl, rfl⟩
  | cons f fs ih =>
    obtain ⟨bins, kind, last⟩ := ih (steady.pour (r := r) f)
    refine ⟨bins, kind.trans ?_, last.trans ?_⟩
    · exact (steady.pour f).kind.symm.trans (steady.pour_eq (r := r) f ▸ steady.kind)
    · rw [steady.pour_eq f]

theorem beq_pourAll (same : (h == h) = true) (fs : List Filling) :
    ((h.pourAll r fs).1 == (h.pourAll r fs).1) = true := by
  obtain ⟨bins, kind, last⟩ := steady.last_eq (r := r) fs
  obtain ⟨parts, _⟩ := Bool.and_eq_true_iff.mp same
  have equal := bins.beq_self (kind ▸ steady.integral)
  rw [last]
  exact Bool.and_eq_true_iff.mpr ⟨parts, equal⟩

end Steady

/-- An entry without a weight may come from a writer that shares the histogram. -/
inductive Filling.Shares : Filling → Filling → Prop where
  | same (f : Filling) : Shares f f
  | shared (coords : List Coord) : Shares (.alone coords none) (.shared coords)

theorem Steady.pour_of_shares (steady : h.Steady) (atomic : h.storage.kind = .atomicInt)
    (shares : Filling.Shares f g) : h.pour r f = h.pour r g := by
  cases shares with
  | same => rfl
  | shared coords =>
    have admitted : h.storage.kind.checkEntry none none = .ok () := by rw [atomic]; rfl
    have same : h.judged (.alone coords none) = h.judged (.shared coords) := by
      rw [judged, judged, admitted, if_neg (not_not.mpr atomic)]
      rfl
    rw [steady.pour_eq, steady.pour_eq, added, added, same]

theorem Steady.pourAll_of_shares (steady : h.Steady) (atomic : h.storage.kind = .atomicInt)
    (shares : List.Forall₂ Filling.Shares fs gs) : h.pourAll r fs = h.pourAll r gs := by
  induction shares generalizing h with
  | nil => rfl
  | @cons f g fs gs first _ ih =>
    have storage : (h.pour r g).state.storage.kind = .atomicInt := by
      rw [steady.pour_eq]
      exact atomic
    rw [pourAll, pourAll, steady.pour_of_shares atomic first, ih (steady.pour g) storage]

/-- The entries of a run may change places, and those without a weight may come from
writers that share the histogram. -/
structure OrderFree (r : Registry) (h : Histogram) : Prop where
  /-- An entry is accepted or refused as if it were the only one. -/
  results : ∀ fs, (h.pourAll r fs).2 = fs.map fun f => (h.pour r f).result
  /-- Every entry comes to the same in both orders. -/
  reordered : ∀ fs gs : List Filling, fs.Perm gs →
    (fs.zip (h.pourAll r fs).2).Perm (gs.zip (h.pourAll r gs).2)
  last : ∀ fs gs : List Filling, fs.Perm gs → (h.pourAll r fs).1 = (h.pourAll r gs).1
  equal : (h == h) = true → ∀ fs gs : List Filling, fs.Perm gs →
    ((h.pourAll r fs).1 == (h.pourAll r gs).1) = true
  shared : h.storage.kind = .atomicInt → ∀ fs gs, List.Forall₂ Filling.Shares fs gs →
    h.pourAll r fs = h.pourAll r gs

/-- Without growth the order of entries into whole counts is of no account. -/
theorem Reachable.orderFree (reachable : h.Reachable) (r : Registry)
    (fixed : ∀ a ∈ h.bareAxes, a.options.growth = false)
    (integral : h.storage.kind.isIntegral = true) : OrderFree r h := by
  have kind := reachable.sound.kind
  have steady : h.Steady :=
    ⟨fun a among => fixed _ (mem_bareAxes.mpr ⟨a, among, rfl⟩), kind, kind ▸ integral⟩
  constructor
  case results => exact steady.results_pourAll
  case reordered =>
    intro fs gs perm
    rw [steady.results_pourAll, steady.results_pourAll, ← List.map_prod_left_eq_zip,
      ← List.map_prod_left_eq_zip]
    exact perm.map _
  case last => exact fun fs gs perm => steady.last_of_perm perm
  case equal =>
    intro same fs gs perm
    rw [← steady.last_of_perm perm]
    exact steady.beq_pourAll same fs
  case shared => exact fun atomic fs gs shares => steady.pourAll_of_shares atomic shares

/-- Whole counts over the integers 0 and 1, with a bin for what is above them. -/
def sharedRange : Histogram where
  axes := [⟨⟨2, "Integer", .main⟩, .integer ⟨0, 2⟩, { overflow := true }, none⟩]
  storage := ⟨⟨6, "AtomicInt", .main⟩, .atomicInt⟩
  bins := .empty .atomicInt 3
  family := .main

theorem reachable_sharedRange : sharedRange.Reachable := by
  have built : Blueprint.build (.integer 0 2) { overflow := true } none =
      .ok ⟨.integer ⟨0, 2⟩, { overflow := true }, none⟩ := rfl
  have new : Histogram.new .builtin sharedRange.axes .atomicInt = .ok sharedRange := rfl
  exact .new Registry.builtin_keepsShape (List.forall_mem_singleton.mpr (.built built)) new
    (by decide)

theorem orderFree_sharedRange : OrderFree .builtin sharedRange :=
  reachable_sharedRange.orderFree .builtin (by decide) rfl

end Histogram
end Binning
