import Binning.Proofs.Histogram.Selection

/-! Groups of bins. The axis and the contents are grouped apart from each other:
the axis has one bin for each group whatever their size, and the contents follow
it as long as the number of bins in a group and that in the range are together
at most `2 ^ 64`. -/
namespace Binning
open Results

/-- The axis of groups of `merge` bins of the range `[lo, hi)`; the last group
may be smaller. -/
structure Axis.Groups (a : Axis) (lo hi merge : Nat) (new : Axis) : Prop where
  size : new.size = (hi - lo) ⌈/⌉ merge
  options : new.options = a.options
  /-- The edges are those between the groups, and the one at the end. -/
  edges : ∀ e, a.law = .edges e → ∃ grouped, new.law = .edges grouped ∧
    grouped.list.length = new.size + 1 ∧
      ∀ k ≤ new.size, grouped.edge k = e.edge (min (lo + k * merge) hi)

theorem Axis.groups_of_slice {a new : Axis} {lo hi merge : Nat}
    (cut : a.slice lo hi merge = .ok new) : a.Groups lo hi merge new := by
  obtain ⟨ordered, _, positive, size, options, _⟩ := size_of_slice cut
  refine ⟨size, options, fun e law => ⟨e.slice lo hi merge, ?_, ?_, fun k below => ?_⟩⟩
  · simp only [slice, sliceLaw, guard_eq_ok, bind_eq_ok, pure_eq_ok, law] at cut
    obtain ⟨_, _, rfl, rfl⟩ := cut
    rfl
  · rw [size, Edges.slice, List.length_map, Edges.length_stops positive]
  · have stop := Edges.getElem?_stops positive (Nat.le_of_lt ordered) (size ▸ below)
    rw [Edges.edge, Edges.slice, List.getD_eq_getElem?_getD, List.getElem?_map, stop]
    rfl

/-- Nothing merges into an empty cell. -/
theorem Bins.value_mergedWith_nil (b : Bins) (turn : Option Nat) :
    (b.mergedWith turn []).value = 0 := by
  cases turn with
  | none =>
    rw [mergedWith, merged, List.foldl_nil, get_empty]
    cases b.kind <;> rfl
  | some => rfl

theorem Choices.chooses {axes : List Axis} {entries : List Index} {choices : List Choice}
    (chosen : Choices axes entries choices) {d : Nat} {a : Axis} {choice : Choice}
    (at_axis : axes[d]? = some a) (at_choice : choices[d]? = some choice) :
    ∃ entry, entries[d]? = some entry ∧ Chooses a entry choice := by
  induction chosen generalizing d with
  | nil => contradiction
  | cons first _ ih =>
    cases d with
    | zero =>
      cases at_axis
      cases at_choice
      exact ⟨_, rfl, first⟩
    | succ d => exact ih at_axis at_choice

namespace Histogram

/-- What an expression with groups gives. -/
structure Regroups (r : Registry) (h : Histogram) (choices : List Choice) (out : Selection) :
    Prop where
  axes : ∀ selected, out = .histogram selected →
    List.Forall₂ Axis.SameShape (choices.filterMap Choice.axis?) selected.bareAxes
  /-- Each of them has one bin for each group, whatever the size of a group. -/
  groups : ∀ (d : Nat) (a : Axis) (lo hi merge : Nat) (new : Axis), h.bareAxes[d]? = some a →
    choices[d]? = some (.group lo hi merge new) → a.Groups lo hi merge new
  /-- If all groups are small enough, every cell is the merge of those that the
  choices read for it. -/
  contents : (∀ choice ∈ choices, choice.Exact) → ∃ turn,
    h.bins.Turning (h.sources (reads h.bareAxes choices)) turn ∧ Selects r h choices turn out
  /-- A flow bin on a side that is cut, for which none is read, is empty. -/
  empty : ∀ turn, (h.bins.mergedWith turn []).value = 0
  /-- Every bin of the range is sent to its group exactly if the groups are small
  enough. -/
  sends : ∀ (d : Nat) (a : Axis) (lo hi merge : Nat) (new : Axis), h.bareAxes[d]? = some a →
    choices[d]? = some (.group lo hi merge new) → merge < 2 ^ 64 →
      ((∀ n, lo + n < hi →
        ((Choice.group lo hi merge new).route a).send (a.slot (lo + n : Nat)) =
          some (some (new.slot (n / merge : Nat)))) ↔ (Choice.group lo hi merge new).Exact)

variable {r : Registry} {h : Histogram}

theorem Reachable.index_regroups (reachable : h.Reachable) (keeps : r.KeepsShape)
    {entries : List Index} {out : Selection} (done : h.index r entries = .ok out) :
    ∃ expanded choices, Index.Expands entries h.rank expanded ∧
      Choices h.bareAxes expanded choices ∧ Regroups r h choices out := by
  have sound := reachable.sound
  obtain ⟨expanded, choices, expands, chosen, axes, contents⟩ := sound.selects_of_index keeps done
  have cuts (d : Nat) (a : Axis) (lo hi merge : Nat) (new : Axis) (at_axis : h.bareAxes[d]? = some a)
      (at_choice : choices[d]? = some (.group lo hi merge new)) :
      a.slice lo hi merge = .ok new := by
    obtain ⟨_, _, choose⟩ := chosen.chooses at_axis at_choice
    cases choose with
    | group _ cut => exact cut
  refine ⟨expanded, choices, expands, chosen, ?_⟩
  constructor
  case axes => exact axes
  case groups =>
    intro d a lo hi merge new at_axis at_choice
    exact Axis.groups_of_slice (cuts d a lo hi merge new at_axis at_choice)
  case contents => exact contents
  case empty => exact h.bins.value_mergedWith_nil
  case sends =>
    intro d a lo hi merge new at_axis at_choice word
    have fits := sound.fits a (List.mem_of_getElem? at_axis)
    exact Route.send_regroup_iff fits (cuts d a lo hi merge new at_axis at_choice) word

/-! ### Three bins -/

/-- The bins between the numbers 0, 1, 2 and 3, with flow bins. -/
def threeBins : Histogram where
  axes := [⟨⟨1, "Variable", .main⟩, .edges ⟨[0, 1, 2, 3]⟩, .flow, none⟩]
  storage := ⟨⟨4, "Int", .main⟩, .int⟩
  bins := .empty .int 5
  family := .main

def threeEntries : Histogram :=
  (threeBins.fillValues .builtin [.float 0.5, .float 1.5, .float 2.5]).state

theorem reachable_threeBins : threeBins.Reachable := by
  have built : Blueprint.build (.edges [0, 1, 2, 3]) .flow none =
      .ok ⟨.edges ⟨[0, 1, 2, 3]⟩, .flow, none⟩ := rfl
  have new : Histogram.new .builtin threeBins.axes .int = .ok threeBins := rfl
  exact .new Registry.builtin_keepsShape (List.forall_mem_singleton.mpr (.built built)) new
    (by decide)

theorem reachable_threeEntries : threeEntries.Reachable :=
  .fillValues reachable_threeBins Registry.builtin_keepsShape (by decide +kernel)

/-- All bins in groups of this many. -/
def groupsOf (merge : Nat) : List Index := [.slice { action := some (.rebin merge) }]

theorem index_regroups_threeEntries : ∃ out expanded choices,
    threeEntries.index .builtin (groupsOf 2) = .ok out ∧
      Index.Expands (groupsOf 2) 1 expanded ∧
      Choices threeEntries.bareAxes expanded choices ∧
      Regroups .builtin threeEntries choices out := by
  have done : ∃ out, threeEntries.index .builtin (groupsOf 2) = .ok out := ⟨_, rfl⟩
  obtain ⟨out, done⟩ := done
  obtain ⟨expanded, choices, meaning⟩ :=
    reachable_threeEntries.index_regroups Registry.builtin_keepsShape done
  exact ⟨out, expanded, choices, done, meaning⟩

/-- A group of the largest number of bins holds one of the three entries. -/
theorem not_regroups_largest : ∃ selected new,
    threeEntries.index .builtin (groupsOf (2 ^ 64 - 1)) = .ok (.histogram selected) ∧
      Choices threeEntries.bareAxes (groupsOf (2 ^ 64 - 1)) [.group 0 3 (2 ^ 64 - 1) new] ∧
      selected.contentAt [0] = .ok (.count 1) ∧
      threeEntries.bins.merged
        (threeEntries.sources (reads threeEntries.bareAxes [.group 0 3 (2 ^ 64 - 1) new]) [0]) =
          .count 3 := by
  refine ⟨_, _, rfl, .cons (.group ⟨rfl, rfl, by decide⟩ rfl) .nil, rfl, rfl⟩

end Histogram
end Binning
