import Binning.Proofs.Histogram.Groups
import Binning.Proofs.Histogram.OneAxis
import Binning.Proofs.Index.Rebins

/-! Groups of all bins of one axis. Each cell of what is left merges the cells of a group,
flow bins stay by themselves, and putting groups in groups again leaves what larger groups
leave, whatever is short at the end of the axis. -/
namespace Binning.Histogram
open Results Reduction

variable {r : Registry} {h g f : Histogram} {d m n merge : Nat} {a b new : Axis}

/-- The expression puts all bins of the axis at place `d` in groups of this many and takes
full ranges of all others. -/
def Rebins (h : Histogram) (d : Nat) (a : Axis) (merge : Nat) (entries : List Index) : Prop :=
  ∃ expanded, Index.expand entries h.rank = .ok expanded ∧
    Index.OnlyAt (Index.Rebins a merge) d h.bareAxes expanded

/-- The index at place `d` is in the group that the other tuple has there, or it is that of
the same flow bin, and all others are the same. -/
def gathers (d : Nat) (a : Axis) (merge : Nat) (is ks : List Int) : Bool :=
  match is[d]?, ks[d]? with
  | some i, some k => decide (a.Grouped 0 a.size merge true true i k) && ks == is.set d k
  | _, _ => false

theorem gathers_iff {is ks : List Int} : gathers d a merge is ks = true ↔
    ∃ i k, is[d]? = some i ∧ a.Grouped 0 a.size merge true true i k ∧ ks = is.set d k := by
  unfold gathers
  constructor
  · intro gathered
    split at gathered
    · rename_i i k here _
      simp only [Bool.and_eq_true, decide_eq_true_eq, beq_iff_eq] at gathered
      exact ⟨i, k, here, gathered⟩
    · contradiction
  · rintro ⟨i, k, here, grouped, rfl⟩
    rw [here, List.getElem?_set_self (List.getElem?_eq_some_iff.mp here).1]
    simp [grouped]

/-- What is left when all bins of the axis at place `d` are put in groups. -/
structure Rebinned (r : Registry) (h : Histogram) (d : Nat) (a : Axis) (merge : Nat)
    (g : Histogram) : Prop where
  asked : ∃ entries, h.Rebins d a merge entries
  index : ∀ entries, h.Rebins d a merge entries → h.index r entries = .ok (.histogram g)
  /-- The axis has a bin for each group, and all others are the same. -/
  axes : ∃ new, a.slice 0 a.size merge = .ok new ∧ a.Groups 0 a.size merge new ∧
    g.bareAxes = h.bareAxes.set d new
  /-- Each cell is the merge of those of its group, and a flow bin has that of the old one. -/
  cells : ∀ ks, g.Addresses ks →
    g.contentAt ks = .ok (h.bins.merged (h.sources (gathers d a merge) ks))

/-- The routes that put the bins of an axis in groups. -/
def rebinning (h : Histogram) (d : Nat) (a new : Axis) (merge : Nat) : List Route :=
  h.changing d (.rebin a new merge)

theorem rebins_single (at_axis : h.bareAxes[d]? = some a) (merge : Nat) : h.Rebins d a merge
    (Index.single h.rank d (.slice { action := some (.rebin merge) })) := by
  have here : Index.Rebins a merge (.slice { action := some (.rebin merge) }) := .all rfl rfl
  have only := Index.onlyAt_single here at_axis
  rw [length_bareAxes] at only
  exact ⟨_, Index.expand_single _ _ rfl, only⟩

section
variable (sound : h.Sound) (at_axis : h.bareAxes[d]? = some a)
  (sliced : a.slice 0 a.size merge = .ok new)
include sound at_axis sliced

theorem Sound.makes_rebin : (Route.rebin a new merge).Makes a new :=
  Route.makes_regroup _ _ (sound.fits a (List.mem_of_getElem? at_axis)) sliced

variable (starts : ∀ c ∈ h.bareAxes, c.StartsSigned)
include starts

theorem Sound.index_rebins {entries : List Index} (rebins : h.Rebins d a merge entries) :
    h.index r entries = .histogram <$>
      ofParts r (h.bareAxes.set d new) (h.moved (h.rebinning d a new merge)) h.family := by
  have fits := sound.fits a (List.mem_of_getElem? at_axis)
  obtain ⟨expanded, expand, only⟩ := rebins
  exact sound.index_changing at_axis (sound.makes_rebin at_axis sliced) starts expand only
    fun _ rebins => rebins.route fits sliced

variable (small : merge ≤ a.size)
include small

theorem Sound.goes_rebinning_iff {is ks : List Int} (has : h.Addresses is) :
    Goes h.bareAxes (h.rebinning d a new merge) is ks ↔ gathers d a merge is ks = true := by
  have fits := sound.fits a (List.mem_of_getElem? at_axis)
  refine (sound.goes_changing_iff at_axis (sound.makes_rebin at_axis sliced) starts has).trans ?_
  rw [gathers_iff]
  refine exists_congr fun i => exists_congr fun k => and_congr_right fun here => ?_
  rw [Route.index?_rebin fits sliced small (has.representable at_axis here)]

theorem Sound.contentAt_rebinning (integral : h.bins.kind.isIntegral = true)
    (axes : g.bareAxes = h.bareAxes.set d new) (bins : g.bins = h.moved (h.rebinning d a new merge))
    {ks : List Int} (has : g.Addresses ks) :
    g.contentAt ks = .ok (h.bins.merged (h.sources (gathers d a merge) ks)) := by
  have makes := sound.makes_rebin at_axis sliced
  have stays : stay (h.rebinning d a new merge) = g.bareAxes :=
    (stay_changing h d makes).trans axes.symm
  obtain ⟨turn, turning, cells⟩ := sound.get_moved (sound.lands_changing at_axis makes)
    (sound.fits_stay_changing makes) (gathers d a merge) fun p below ks =>
      (sound.goes_rebinning_iff at_axis sliced starts small (sound.addresses_indicesAt below)).symm
  have cell := cells ks (stays.symm ▸ has)
  rw [turning.mergedWith_eq (Bins.not_unlimited_of_isIntegral integral)] at cell
  rw [contentAt_of_addresses has, place, bins, ← stays]
  exact congrArg Except.ok cell

/-- The parts of a histogram in groups make one. -/
theorem Sound.rebinned_of_ofParts (plain : r.Plain) (integral : h.bins.kind.isIntegral = true)
    (parts : ofParts r (h.bareAxes.set d new) (h.moved (h.rebinning d a new merge)) h.family =
      .ok g) : Rebinned r h d a merge g := by
  have axes := bareAxes_of_ofParts plain parts
  obtain ⟨_, bins, _⟩ := ofParts_eq_ok parts
  constructor
  case asked => exact ⟨_, rebins_single at_axis merge⟩
  case index =>
    intro entries rebins
    rw [sound.index_rebins at_axis sliced starts rebins, parts]
    rfl
  case axes => exact ⟨new, sliced, Axis.groups_of_slice sliced, axes⟩
  case cells =>
    exact fun ks => sound.contentAt_rebinning at_axis sliced starts small integral axes bins

end

/-- The bins can be put in groups wherever the axis can be sliced so. -/
theorem Sound.exists_rebinned (sound : h.Sound) (covers : r.Covers) (plain : r.Plain)
    (integral : h.bins.kind.isIntegral = true) (starts : ∀ c ∈ h.bareAxes, c.StartsSigned)
    (at_axis : h.bareAxes[d]? = some a) (sliced : a.slice 0 a.size merge = .ok new)
    (small : merge ≤ a.size) :
    ∃ g, Rebinned r h d a merge g ∧ g.Sound ∧
      ofParts r (h.bareAxes.set d new) (h.moved (h.rebinning d a new merge)) h.family = .ok g := by
  obtain ⟨g, parts⟩ := ofParts_of_covers covers (h.bareAxes.set d new)
    (h.moved (h.rebinning d a new merge)) h.family
  have rebinned := sound.rebinned_of_ofParts at_axis sliced starts small plain integral parts
  obtain ⟨entries, rebins⟩ := rebinned.asked
  exact ⟨g, rebinned, sound.index plain.keepsShape (rebinned.index entries rebins), parts⟩

/-! ### Groups of groups -/

/-- All bins of an axis are put in groups and these in groups again, which leaves what is
left when they are put in the larger groups at once. -/
structure RebinnedTwice (r : Registry) (h : Histogram) (d : Nat) (a : Axis) (m n : Nat)
    (b : Axis) (g f : Histogram) : Prop where
  first : Rebinned r h d a m g
  axis : g.bareAxes[d]? = some b
  second : Rebinned r g d b n f
  both : Rebinned r h d a (m * n) f

/-- Moving on to the groups of groups is moving to the larger groups. -/
theorem Sound.moved_rebinning (sound : h.Sound) (others : g.Sound)
    (starts : ∀ c ∈ h.bareAxes, c.StartsSigned) (starts_rest : ∀ c ∈ g.bareAxes, c.StartsSigned)
    (at_axis : h.bareAxes[d]? = some a) (first : a.slice 0 a.size m = .ok b)
    (second : b.slice 0 b.size n = .ok new) (both : a.slice 0 a.size (m * n) = .ok new)
    (inside : m * n ≤ a.size) (rest : n ≤ b.size) (axes : g.bareAxes = h.bareAxes.set d b)
    (integral : h.bins.kind.isIntegral = true) (bins : g.bins = h.moved (h.rebinning d a b m)) :
    g.moved (g.rebinning d b new n) = h.moved (h.rebinning d a new (m * n)) := by
  obtain ⟨_, _, some_first, size, _⟩ := Axis.size_of_slice first
  obtain ⟨_, _, some_second, _⟩ := Axis.size_of_slice second
  have makes := sound.makes_rebin at_axis first
  have fits := sound.fits a (List.mem_of_getElem? at_axis)
  have small : m ≤ a.size := Nat.le_trans (Nat.le_mul_of_pos_right m some_second) inside
  have grouped {i k : Int} :=
    Axis.grouped_grouped_iff (i := i) (k := k) some_first some_second size
  refine sound.moved_changing others starts starts_rest at_axis makes
    (others.makes_rebin (getElem?_of_set at_axis axes) second) (sound.makes_rebin at_axis both)
    (fun i has => ?_) axes integral bins
  exact makes.index?_eq_bind fits (fun _ _ has => Route.index?_rebin fits first small has)
    (fun _ _ has => Route.index?_rebin makes.fits second rest has)
    (fun _ _ has => Route.index?_rebin fits both inside has) (fun _ _ => grouped) has

/-- Putting all bins of an axis in groups and these in groups again is putting them in the
larger groups at once, whatever the expressions and whatever the other axes are. -/
theorem Reachable.rebin_twice (reachable : h.Reachable) (known : r.Known) (plain : r.Plain)
    (integral : h.storage.kind.isIntegral = true) (starts : ∀ c ∈ h.bareAxes, c.StartsSigned)
    (at_axis : h.bareAxes[d]? = some a) (some_first : 0 < m) (some_second : 0 < n)
    (inside : m * n ≤ a.size) (groupable : a.Groupable (m * n)) :
    ∃ b g f, RebinnedTwice r h d a m n b g f := by
  have sound := reachable.sound
  have covers := known.covers
  have whole : h.bins.kind.isIntegral = true := sound.kind ▸ integral
  have sized := sound.sized a (List.mem_of_getElem? at_axis)
  have small : m ≤ a.size := Nat.le_trans (Nat.le_mul_of_pos_right m some_second) inside
  -- the axis in groups, in groups of these and in the larger groups
  obtain ⟨b, first⟩ := Axis.exists_slice_all groupable.of_mul sized some_first
  obtain ⟨_, _, _, size, _⟩ := Axis.size_of_slice first
  have rest : n ≤ b.size := by
    rw [size, Nat.sub_zero]
    have covers : a.size ≤ m * (a.size ⌈/⌉ m) :=
      (ceilDiv_le_iff_le_mul some_first).mp (Nat.le_refl _)
    exact Nat.le_of_mul_le_mul_left (Nat.le_trans inside covers) some_first
  have groupable_rest := groupable.slice sized some_first first
  obtain ⟨new, second⟩ := Axis.exists_slice_all groupable_rest (by omega) some_second
  have both := Axis.slice_slice_all groupable sized some_first first some_second second
  -- the histogram in groups and in the larger ones
  obtain ⟨g, rebinned, others, parts⟩ :=
    sound.exists_rebinned covers plain whole starts at_axis first small
  obtain ⟨f, once, _, last⟩ := sound.exists_rebinned covers plain whole starts at_axis both inside
  obtain ⟨_, bins, _, family⟩ := ofParts_eq_ok parts
  have axes := bareAxes_of_ofParts plain parts
  have at_rest := getElem?_of_set at_axis axes
  have starts_rest : ∀ c ∈ g.bareAxes, c.StartsSigned := by
    intro c among
    rcases List.mem_or_eq_of_mem_set (axes ▸ among) with old | rfl
    · exact starts c old
    · exact groupable_rest.startsSigned
  have whole_rest : g.bins.kind.isIntegral = true := by
    rw [bins, kind_moved]
    exact whole
  have again : ofParts r (g.bareAxes.set d new) (g.moved (g.rebinning d b new n)) g.family =
      .ok f := by
    rw [sound.moved_rebinning others starts starts_rest at_axis first second both inside rest axes
      whole bins, axes, List.set_set, family, last]
  have twice := others.rebinned_of_ofParts at_rest second starts_rest rest plain whole_rest again
  exact ⟨b, g, f, rebinned, at_rest, twice, once⟩

/-- Whole counts over five bins between numbers, with flow bins, and two labels. -/
def fiveBins : Histogram where
  axes :=
    [⟨⟨1, "Variable", .main⟩, .edges ⟨[0, 1, 2, 3, 4, 5]⟩, .flow, none⟩,
      ⟨⟨3, "Category", .main⟩, .category (.texts ["a", "b"]), { overflow := true }, none⟩]
  storage := ⟨⟨4, "Int", .main⟩, .int⟩
  bins := .empty .int 21
  family := .main

/-- One entry beyond the numbers, one in the last bin and two in the first two. -/
def fiveEntries : Histogram :=
  (fiveBins.fillAll .builtin [[.float 7, .text "a"], [.float 4.5, .text "a"],
    [.float 0.5, .text "b"], [.float 1.5, .text "b"]]).state

theorem reachable_fiveEntries : fiveEntries.Reachable := by
  have edges : Blueprint.build (.edges [0, 1, 2, 3, 4, 5]) .flow none =
      .ok ⟨.edges ⟨[0, 1, 2, 3, 4, 5]⟩, .flow, none⟩ := rfl
  have labels : Blueprint.build (.category [.text "a", .text "b"]) {} none =
      .ok ⟨.category (.texts ["a", "b"]), { overflow := true }, none⟩ := rfl
  have new : Histogram.new .builtin fiveBins.axes .int = .ok fiveBins := rfl
  refine .fillAll (.new Registry.builtin_keepsShape ?_ new (by decide))
    Registry.builtin_keepsShape (by decide +kernel)
  exact List.forall_mem_cons.mpr ⟨.built edges, List.forall_mem_singleton.mpr (.built labels)⟩

/-- Pairs of bins and then pairs of these: the last bin is alone both times. -/
theorem rebin_twice_fiveEntries : ∃ b g f,
    RebinnedTwice .builtin fiveEntries 0 ⟨.edges ⟨[0, 1, 2, 3, 4, 5]⟩, .flow, none⟩ 2 2 b g f ∧
      f.contentAt [0, 1] = .ok (.count 2) ∧ f.contentAt [1, 0] = .ok (.count 1) ∧
        f.contentAt [2, 0] = .ok (.count 1) := by
  have starts : ∀ a ∈ fiveEntries.bareAxes, a.StartsSigned := by decide +kernel
  obtain ⟨b, g, f, twice⟩ := reachable_fiveEntries.rebin_twice .builtin Registry.builtin_plain rfl
    starts (d := 0) rfl Nat.two_pos Nat.two_pos (show 2 * 2 ≤ 5 by decide) trivial
  obtain ⟨grouped, done, contents⟩ : ∃ grouped,
      fiveEntries.index .builtin (Index.single 2 0 (.slice { action := some (.rebin 4) })) =
        .ok (.histogram grouped) ∧ grouped.contentAt [0, 1] = .ok (.count 2) ∧
          grouped.contentAt [1, 0] = .ok (.count 1) ∧ grouped.contentAt [2, 0] = .ok (.count 1) :=
    ⟨_, rfl, rfl, rfl, rfl⟩
  cases done.symm.trans (twice.both.index _ (rebins_single rfl 4))
  exact ⟨b, g, _, twice, contents⟩

end Binning.Histogram
