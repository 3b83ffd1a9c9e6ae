import Binning.Proofs.Histogram.Moves
import Binning.Proofs.Histogram.Reachable
import Binning.Proofs.Index.Choices

/-! What an index expression gives. The axes that stay are the chosen ones, in
their order, and every cell is the merge of those that the choices read for
it. -/
namespace Binning.Histogram
open Results

/-- The outcome of the choices when the counters turn there. -/
inductive Selects (r : Registry) (h : Histogram) (choices : List Choice) (turn : Option Nat) :
    Selection → Prop where
  /-- If no axis stays, all that is read is one cell. -/
  | value : choices.filterMap Choice.axis? = [] →
      Selects r h choices turn
        (.value (h.bins.mergedWith turn (h.sources (reads h.bareAxes choices) [])))
  | histogram {selected : Histogram} : choices.filterMap Choice.axis? ≠ [] →
      List.Forall₂ (fun a c => ClassedAxis.cast r (some h.family) a = .ok c)
        (choices.filterMap Choice.axis?) selected.axes →
      (∀ ks, selected.Addresses ks → selected.contentAt ks =
        .ok (h.bins.mergedWith turn (h.sources (reads h.bareAxes choices) ks))) →
      Selects r h choices turn (.histogram selected)

variable {r : Registry} {h : Histogram}

theorem reduce_eq_ok {routes : List Route} (same : routes.length = h.rank) {out : Selection}
    (done : h.reduce r routes (List.range h.rank) = .ok out) :
    Reduction.stay routes = [] ∧ out = .value ((h.moved routes).get 0) ∨
      Reduction.stay routes ≠ [] ∧ ∃ selected, out = .histogram selected ∧
        ofParts r (Reduction.stay routes) (h.moved routes) h.family = .ok selected := by
  simp only [Histogram.reduce, Reduction.gather, ← same, Reduction.axes_range] at done
  split at done
  · rename_i none_stay
    cases done
    exact .inl ⟨List.isEmpty_iff.mp none_stay, rfl⟩
  · rename_i some_stay
    obtain ⟨selected, parts, rfl⟩ := map_eq_ok.mp done
    exact .inr ⟨fun none_stay => some_stay (List.isEmpty_iff.mpr none_stay), selected, rfl, parts⟩

theorem contentAt_of_ofParts (keeps : r.KeepsShape) {axes : List Axis} (made : ∀ a ∈ axes, a.Made)
    {bins : Bins} {family : Family} {selected : Histogram}
    (parts : ofParts r axes bins family = .ok selected) {ks : List Int}
    (has : selected.Addresses ks) :
    Axis.Addresses axes ks ∧ selected.contentAt ks = .ok (bins.get (Axis.place axes ks)) := by
  obtain ⟨cast, rfl, _⟩ := ofParts_eq_ok parts
  have shapes := (cast_axes keeps made cast).2
  refine ⟨(Axis.addresses_of_sameShape shapes).mpr has, ?_⟩
  rw [contentAt_of_addresses has, Axis.place_of_sameShape shapes]
  rfl

/-- The axes are the chosen ones in any case, and the contents are those that the
choices read if all groups are small enough. -/
theorem Sound.selects_of_index (sound : h.Sound) (keeps : r.KeepsShape) {entries : List Index}
    {out : Selection} (done : h.index r entries = .ok out) :
    ∃ expanded choices, Index.Expands entries h.rank expanded ∧
      Choices h.bareAxes expanded choices ∧
      (∀ selected, out = .histogram selected →
        List.Forall₂ Axis.SameShape (choices.filterMap Choice.axis?) selected.bareAxes) ∧
      ((∀ choice ∈ choices, choice.Exact) → ∃ turn,
        h.bins.Turning (h.sources (reads h.bareAxes choices)) turn ∧
          Selects r h choices turn out) := by
  obtain ⟨expanded, routes, expand, routed, reduced⟩ := index_eq_ok done
  have expands := Index.expands_of_expand expand
  have arity : expanded.length = h.bareAxes.length :=
    expands.length.trans (List.length_map _).symm
  obtain ⟨choices, chosen, rfl⟩ := choices_of_routes arity sound.fits routed
  have fitting := fitting_routes arity sound.made_bare sound.fits routed
  have same : (List.zipWith Choice.route h.bareAxes choices).length = h.rank :=
    fitting.length_eq.symm.trans (List.length_map _)
  obtain ⟨made, small⟩ := axes_of_fitting sound fitting List.nodup_range
    fun d among => List.mem_range.mp among
  rw [← same, Reduction.axes_range, chosen.stay] at made small
  refine ⟨expanded, choices, expands, chosen, ?_, fun exact_groups => ?_⟩
  · rintro selected rfl
    rcases reduce_eq_ok same reduced with ⟨_, ⟨⟩⟩ | ⟨_, _, ⟨⟩, parts⟩
    rw [chosen.stay] at parts
    exact (cast_axes keeps made (ofParts_eq_ok parts).1).2
  have kept := fits_of_volume made small
  rw [← chosen.stay] at kept
  obtain ⟨turn, turning, cells⟩ := sound.get_moved (fitting.imp fun _ _ fit => fit.lands) kept
    (reads h.bareAxes choices) fun p below =>
      reads_iff_goes chosen exact_groups sound.fits (sound.addresses_indicesAt below)
  refine ⟨turn, turning, ?_⟩
  rcases reduce_eq_ok same reduced with ⟨none_stay, rfl⟩ | ⟨some_stay, selected, rfl, parts⟩
  · have cell := cells [] (none_stay ▸ .nil)
    rw [none_stay] at cell
    rw [show (0 : Nat) = Axis.place [] [] from rfl, cell]
    exact .value (chosen.stay ▸ none_stay)
  · rw [chosen.stay] at some_stay parts cells
    refine .histogram some_stay (ofParts_eq_ok parts).1 fun ks has => ?_
    obtain ⟨addressed, found⟩ := contentAt_of_ofParts keeps made parts has
    rw [found, cells ks addressed]

/-- The meaning of an expression without groups. -/
theorem Reachable.index_selects (reachable : h.Reachable) (keeps : r.KeepsShape)
    {entries : List Index} (single : ∀ e ∈ entries, e.groups = false) {out : Selection}
    (done : h.index r entries = .ok out) :
    ∃ expanded choices turn, Index.Expands entries h.rank expanded ∧
      Choices h.bareAxes expanded choices ∧
      h.bins.Turning (h.sources (reads h.bareAxes choices)) turn ∧
      Selects r h choices turn out := by
  obtain ⟨expanded, choices, expands, chosen, _, selects⟩ := reachable.sound.selects_of_index keeps done
  have exact_groups := chosen.exact_of_single (expands.groups_eq_false single)
  obtain ⟨turn, turning, selects⟩ := selects exact_groups
  exact ⟨expanded, choices, turn, expands, chosen, turning, selects⟩

/-! ### Counters that turn -/

/-- Two axes of the integers 0 and 1, without flow bins. -/
def unlimitedPair : Histogram where
  axes :=
    [⟨⟨2, "Integer", .main⟩, .integer ⟨0, 2⟩, {}, none⟩,
      ⟨⟨2, "Integer", .main⟩, .integer ⟨0, 2⟩, {}, none⟩]
  storage := ⟨⟨7, "Unlimited", .main⟩, .unlimited⟩
  bins := .empty .unlimited 4
  family := .main

theorem reachable_unlimitedPair : unlimitedPair.Reachable := by
  have built : Blueprint.build (.integer 0 2) {} none = .ok ⟨.integer ⟨0, 2⟩, {}, none⟩ := rfl
  have new : Histogram.new .builtin unlimitedPair.axes .unlimited = .ok unlimitedPair := rfl
  refine .new Registry.builtin_keepsShape ?_ new (by decide)
  exact List.forall_mem_cons.mpr ⟨.built built, List.forall_mem_singleton.mpr (.built built)⟩

/-- Counts of which those at the second index 0 make more than a word. -/
def turningPair : Histogram :=
  { unlimitedPair with
    bins := .unlimited (.counts .sixtyFour #[2 ^ 63, 2 ^ 53 + 1, 2 ^ 63, 1]) }

theorem reachable_turningPair : turningPair.Reachable := by
  have entry (h : Histogram) (reachable : h.Reachable) (i j : Int) (weight : Option Float)
      (allocated : (h.fill .builtin [.int i, .int j] weight).state.Allocated) :
      (h.fill .builtin [.int i, .int j] weight).state.Reachable :=
    .fill reachable Registry.builtin_keepsShape allocated
  have first := entry _ reachable_unlimitedPair 0 0 (some 9223372036854775808) (by decide +kernel)
  have second := entry _ first 0 1 (some 9007199254740992) (by decide +kernel)
  have third := entry _ second 0 1 none (by decide +kernel)
  have fourth := entry _ third 1 0 (some 9223372036854775808) (by decide +kernel)
  exact entry _ fourth 1 1 none (by decide +kernel)

/-- Sum over the first axis and keep the second. -/
def columnTotals : List Index := [.slice { action := some .sum }, .slice {}]

def columnChoices : List Choice := [.sum 0 2, .keep 0 2 ⟨.integer ⟨0, 2⟩, {}, none⟩]

theorem chosen_columnTotals : Choices turningPair.bareAxes columnTotals columnChoices :=
  .cons (.sum ⟨rfl, rfl, by decide⟩) (.cons (.keep ⟨rfl, rfl, by decide⟩ rfl) .nil)

theorem index_selects_turningPair : ∃ out expanded choices turn,
    turningPair.index .builtin columnTotals = .ok out ∧ Index.Expands columnTotals 2 expanded ∧
      Choices turningPair.bareAxes expanded choices ∧
      turningPair.bins.Turning
        (turningPair.sources (reads turningPair.bareAxes choices)) turn ∧
      Selects .builtin turningPair choices turn out := by
  have done : ∃ out, turningPair.index .builtin columnTotals = .ok out := ⟨_, rfl⟩
  obtain ⟨out, done⟩ := done
  obtain ⟨expanded, choices, turn, meaning⟩ :=
    reachable_turningPair.index_selects Registry.builtin_keepsShape (by decide) done
  exact ⟨out, expanded, choices, turn, done, meaning⟩

/-- The total at 1 is a count on its own, but the one at 0 has turned all totals
into sums of weights before. -/
theorem not_selects_apart : turningPair.Reachable ∧ ∃ out,
    turningPair.index .builtin columnTotals = .ok out ∧
      Choices turningPair.bareAxes columnTotals columnChoices ∧
      ¬ Selects .builtin turningPair columnChoices none out := by
  refine ⟨reachable_turningPair, _, rfl, chosen_columnTotals, ?_⟩
  intro selects
  cases selects with
  | histogram _ _ cells =>
    obtain ⟨_, same⟩ := contentAt_eq_ok.mp (cells [1] (by decide +kernel))
    have counted : (turningPair.bins.merged
        (turningPair.sources (reads turningPair.bareAxes columnChoices) [1])).isReal = false := by
      decide +kernel
    rw [Bins.mergedWith] at same
    rw [← same] at counted
    revert counted
    decide +kernel

end Binning.Histogram
