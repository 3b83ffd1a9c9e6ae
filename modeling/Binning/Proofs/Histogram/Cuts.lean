import Binning.Proofs.Histogram.Moves
import Binning.Proofs.Histogram.OneAxis
import Binning.Proofs.Index.Cuts

/-! Cuts of histograms. Taking bins of one axis leaves every other axis as it is, and
taking bins of what is left is taking them at once: the same axes and the same cells, and
the flow bins that survive both cuts are those that survive the one. A flow bin that the
first cut has emptied goes on to be kept as an empty one. -/
namespace Binning.Histogram
open Results Reduction

variable {r : Registry} {h g f : Histogram} {d lo hi m n : Nat} {a b new : Axis}

/-- The expression takes the bins `[lo, hi)` of the axis at place `d` and full ranges of
all others. -/
def Takes (h : Histogram) (d lo hi : Nat) (entries : List Index) : Prop :=
  ∃ expanded, Index.expand entries h.rank = .ok expanded ∧
    Index.Cuts lo hi d h.bareAxes expanded

/-- What is left when the bins `[lo, hi)` of the axis at place `d` are taken. -/
structure Cut (r : Registry) (h : Histogram) (d : Nat) (a : Axis) (lo hi : Nat) (g : Histogram) :
    Prop where
  taken : ∃ entries, h.Takes d lo hi entries
  index : ∀ entries, h.Takes d lo hi entries → h.index r entries = .ok (.histogram g)
  /-- The other axes are the same. -/
  axes : ∃ new, a.slice lo hi 1 = .ok new ∧ g.bareAxes = h.bareAxes.set d new
  /-- The cells of the bins are the same, and so are those of a flow bin on a side that is
  not cut. -/
  kept : ∀ is i k, h.Addresses is → is[d]? = some i → a.Kept lo hi i k →
    g.contentAt (is.set d k) = h.contentAt is
  /-- A flow bin on a side that is cut is empty. -/
  empty : ∀ ks k, g.Addresses ks → ks[d]? = some k →
    k = -1 ∧ lo ≠ 0 ∨ k = (hi - lo : Nat) ∧ hi ≠ a.size → g.contentAt ks = .ok (.count 0)

/-- The routes of a cut. -/
def cutting (h : Histogram) (d : Nat) (a new : Axis) (lo hi : Nat) : List Route :=
  h.wholes.set d (.cut a new lo hi)

section
variable (sound : h.Sound) (at_axis : h.bareAxes[d]? = some a)
  (sliced : a.slice lo hi 1 = .ok new)
include sound at_axis

theorem Sound.takes_bins (some_bin : lo < hi) (inside : hi ≤ a.size) :
    h.Takes d lo hi (Index.bins h.rank d lo hi) := by
  have fits := sound.fits a (List.mem_of_getElem? at_axis)
  have cuts := Index.cuts_bins fits some_bin inside at_axis
  rw [length_bareAxes] at cuts
  exact ⟨_, Index.expand_bins .., cuts⟩

include sliced

theorem Sound.makes_cut : (Route.cut a new lo hi).Makes a new :=
  Route.makes_regroup _ _ (sound.fits a (List.mem_of_getElem? at_axis)) sliced

theorem Sound.fits_stay_cutting : ∀ b ∈ stay (h.cutting d a new lo hi), b.Fits :=
  sound.fits_stay_changing (sound.makes_cut at_axis sliced)

theorem Sound.lands_cutting :
    List.Forall₂ (fun a r => Route.Lands a r) h.bareAxes (h.cutting d a new lo hi) :=
  sound.lands_changing at_axis (sound.makes_cut at_axis sliced)

variable (starts : ∀ a ∈ h.bareAxes, a.StartsSigned)
include starts

/-- A tuple of indices goes where the cut keeps its index on the axis, and all of its
other indices stay. -/
theorem Sound.goes_cutting_iff {is ks : List Int} (has : h.Addresses is) :
    Goes h.bareAxes (h.cutting d a new lo hi) is ks ↔
      ∃ i k, is[d]? = some i ∧ a.Kept lo hi i k ∧ ks = is.set d k := by
  have fits := sound.fits a (List.mem_of_getElem? at_axis)
  refine (sound.goes_changing_iff at_axis (sound.makes_cut at_axis sliced) starts has).trans ?_
  refine exists_congr fun i => exists_congr fun k => and_congr_right fun here => ?_
  rw [Route.index?_cut fits sliced (has.representable at_axis here)]

theorem Sound.index_cut {entries : List Index} (takes : h.Takes d lo hi entries) :
    h.index r entries = .histogram <$>
      ofParts r (h.bareAxes.set d new) (h.moved (h.cutting d a new lo hi)) h.family := by
  have fits := sound.fits a (List.mem_of_getElem? at_axis)
  obtain ⟨expanded, expand, cuts⟩ := takes
  exact sound.index_changing at_axis (sound.makes_cut at_axis sliced) starts expand
    ((Index.cuts_iff at_axis).mp cuts) fun _ takes => takes.route fits sliced

/-- Only one tuple of indices goes to another. -/
theorem Sound.goes_cutting_inj {is js ks : List Int} (has : h.Addresses is)
    (others : h.Addresses js) (left : Goes h.bareAxes (h.cutting d a new lo hi) is ks)
    (right : Goes h.bareAxes (h.cutting d a new lo hi) js ks) : js = is := by
  obtain ⟨some_bin, _⟩ := Axis.size_of_slice sliced
  obtain ⟨i, k, here, kept, rfl⟩ := (sound.goes_cutting_iff at_axis sliced starts has).mp left
  obtain ⟨j, l, there, keeps, same⟩ := (sound.goes_cutting_iff at_axis sliced starts others).mp right
  have entry := congrArg (·[d]?) same
  simp only [List.getElem?_set_self (List.getElem?_eq_some_iff.mp here).1,
    List.getElem?_set_self (List.getElem?_eq_some_iff.mp there).1, Option.some.injEq] at entry
  have agree : i = j := kept.left_unique some_bin (entry ▸ keeps)
  exact (eq_of_set_eq here (agree ▸ there) same).symm

section
variable (integral : h.bins.kind.isIntegral = true) (axes : g.bareAxes = h.bareAxes.set d new)
  (bins : g.bins = h.moved (h.cutting d a new lo hi))
include integral axes bins

/-- An index that is kept has its cell after the cut. -/
theorem Sound.contentAt_of_kept {is : List Int} {i k : Int} (has : h.Addresses is)
    (here : is[d]? = some i) (keeps : a.Kept lo hi i k) :
    g.contentAt (is.set d k) = h.contentAt is := by
  have apart := Bins.not_unlimited_of_isIntegral integral
  have lands := sound.lands_cutting at_axis sliced
  have fits := sound.fits_stay_cutting at_axis sliced
  have stays : stay (h.cutting d a new lo hi) = g.bareAxes :=
    (stay_changing h d (sound.makes_cut at_axis sliced)).trans axes.symm
  have went := (sound.goes_cutting_iff at_axis sliced starts has).mpr ⟨i, k, here, keeps, rfl⟩
  have arrives := went.addresses lands sound.fits fits has
  have cell := sound.get_moved_of_goes apart lands fits has went fun js others came =>
    sound.goes_cutting_inj at_axis sliced starts has others went came
  rw [sound.words.merge_zero integral, stays, ← bins] at cell
  rw [stays] at arrives
  rw [contentAt_of_addresses arrives, contentAt_of_addresses has]
  exact congrArg Except.ok cell

/-- A flow bin on a side that is cut gets no cell. -/
theorem Sound.contentAt_of_cut {ks : List Int} {k : Int} (has : g.Addresses ks)
    (here : ks[d]? = some k) (flow : k = -1 ∧ lo ≠ 0 ∨ k = (hi - lo : Nat) ∧ hi ≠ a.size) :
    g.contentAt ks = .ok (.count 0) := by
  have apart := Bins.not_unlimited_of_isIntegral integral
  have stays : stay (h.cutting d a new lo hi) = g.bareAxes :=
    (stay_changing h d (sound.makes_cut at_axis sliced)).trans axes.symm
  have nowhere : ∀ js, h.Addresses js → ¬ Goes h.bareAxes (h.cutting d a new lo hi) js ks := by
    intro js others came
    obtain ⟨j, l, there, keeps, rfl⟩ :=
      (sound.goes_cutting_iff at_axis sliced starts others).mp came
    rw [List.getElem?_set_self (List.getElem?_eq_some_iff.mp there).1, Option.some.injEq] at here
    obtain ⟨some_bin, _⟩ := Axis.size_of_slice sliced
    unfold Axis.Kept at keeps
    omega
  have cell := sound.get_moved_of_nowhere apart (sound.lands_cutting at_axis sliced)
    (sound.fits_stay_cutting at_axis sliced) (stays.symm ▸ has) nowhere
  rw [StorageKind.zero_of_isIntegral integral, stays, ← bins] at cell
  rw [contentAt_of_addresses has]
  exact congrArg Except.ok cell

end

/-- The parts of a cut make one. -/
theorem Sound.cut_of_ofParts (plain : r.Plain) (integral : h.bins.kind.isIntegral = true)
    (parts : ofParts r (h.bareAxes.set d new) (h.moved (h.cutting d a new lo hi)) h.family =
      .ok g) : Cut r h d a lo hi g := by
  obtain ⟨some_bin, inside, _⟩ := Axis.size_of_slice sliced
  have axes := bareAxes_of_ofParts plain parts
  obtain ⟨_, bins, _⟩ := ofParts_eq_ok parts
  constructor
  case taken => exact ⟨_, sound.takes_bins at_axis some_bin inside⟩
  case index =>
    intro entries takes
    rw [sound.index_cut at_axis sliced starts takes, parts]
    rfl
  case axes => exact ⟨new, sliced, axes⟩
  case kept =>
    exact fun is i k => sound.contentAt_of_kept at_axis sliced starts integral axes bins
  case empty =>
    exact fun ks k => sound.contentAt_of_cut at_axis sliced starts integral axes bins

end

/-- A cut can be made wherever the axis can be sliced. -/
theorem Sound.exists_cut (sound : h.Sound) (covers : r.Covers) (plain : r.Plain)
    (integral : h.bins.kind.isIntegral = true) (starts : ∀ c ∈ h.bareAxes, c.StartsSigned)
    (at_axis : h.bareAxes[d]? = some a) (sliced : a.slice lo hi 1 = .ok new) :
    ∃ g, Cut r h d a lo hi g ∧ g.Sound ∧
      ofParts r (h.bareAxes.set d new) (h.moved (h.cutting d a new lo hi)) h.family = .ok g := by
  obtain ⟨g, parts⟩ := ofParts_of_covers covers (h.bareAxes.set d new)
    (h.moved (h.cutting d a new lo hi)) h.family
  have cut := sound.cut_of_ofParts at_axis sliced starts plain integral parts
  obtain ⟨entries, takes⟩ := cut.taken
  exact ⟨g, cut, sound.index plain.keepsShape (cut.index entries takes), parts⟩

/-! ### Cuts of cuts -/

/-- The bins `[lo, hi)` of an axis are taken and then the bins `[m, n)` of them, which
leaves what is left when both are done at once. -/
structure CutTwice (r : Registry) (h : Histogram) (d : Nat) (a : Axis) (lo hi m n : Nat)
    (b : Axis) (g f : Histogram) : Prop where
  first : Cut r h d a lo hi g
  axis : g.bareAxes[d]? = some b
  second : Cut r g d b m n f
  both : Cut r h d a (lo + m) (lo + n) f
  /-- An index, that of a flow bin too, comes through both cuts where it comes through the
  single one. -/
  survives : ∀ i k, (∃ j, a.Kept lo hi i j ∧ b.Kept m n j k) ↔ a.Kept (lo + m) (lo + n) i k

section
variable (sound : h.Sound) (others : g.Sound) (starts : ∀ c ∈ h.bareAxes, c.StartsSigned)
  (starts_rest : ∀ c ∈ g.bareAxes, c.StartsSigned) (at_axis : h.bareAxes[d]? = some a)
  (first : a.slice lo hi 1 = .ok b) (second : b.slice m n 1 = .ok new)
  (both : a.slice (lo + m) (lo + n) 1 = .ok new) (axes : g.bareAxes = h.bareAxes.set d b)
include sound others starts starts_rest at_axis first second both axes

/-- Moving on along the routes of the second cut is moving along those of both. -/
theorem Sound.moved_cutting (integral : h.bins.kind.isIntegral = true)
    (bins : g.bins = h.moved (h.cutting d a b lo hi)) :
    g.moved (g.cutting d b new m n) = h.moved (h.cutting d a new (lo + m) (lo + n)) := by
  obtain ⟨_, inside, _, size, _⟩ := Axis.size_of_slice first
  obtain ⟨some_rest, rest, _⟩ := Axis.size_of_slice second
  rw [ceilDiv_one] at size
  have makes := sound.makes_cut at_axis first
  have fits := sound.fits a (List.mem_of_getElem? at_axis)
  have kept {i k : Int} := Axis.kept_kept_iff (i := i) (k := k) size inside some_rest (size ▸ rest)
  refine sound.moved_changing others starts starts_rest at_axis makes
    (others.makes_cut (getElem?_of_set at_axis axes) second) (sound.makes_cut at_axis both)
    (fun i has => ?_) axes integral bins
  exact makes.index?_eq_bind fits (fun _ _ has => Route.index?_cut fits first has)
    (fun _ _ has => Route.index?_cut makes.fits second has)
    (fun _ _ has => Route.index?_cut fits both has) (fun _ _ => kept) has

end

/-- Taking bins of the bins of an axis that is not regular is taking them at once,
whatever the expressions and whatever the other axes are. -/
theorem Reachable.cut_twice (reachable : h.Reachable) (known : r.Known) (plain : r.Plain)
    (integral : h.storage.kind.isIntegral = true) (starts : ∀ c ∈ h.bareAxes, c.StartsSigned)
    (at_axis : h.bareAxes[d]? = some a) (explicit : a.isRegular = false) (some_bin : lo < hi)
    (inside : hi ≤ a.size) (some_rest : m < n) (rest : n ≤ hi - lo) :
    ∃ b g f, CutTwice r h d a lo hi m n b g f := by
  have sound := reachable.sound
  have covers := known.covers
  have whole : h.bins.kind.isIntegral = true := sound.kind ▸ integral
  have fits := sound.fits a (List.mem_of_getElem? at_axis)
  -- the axis after each of the cuts
  obtain ⟨b, first⟩ := Axis.exists_slice explicit some_bin inside
  obtain ⟨_, _, _, size, _⟩ := Axis.size_of_slice first
  rw [ceilDiv_one] at size
  have explicit_rest := Axis.isRegular_of_slice explicit first
  obtain ⟨new, second⟩ := Axis.exists_slice explicit_rest some_rest (size ▸ rest)
  have both := Axis.slice_slice explicit fits first second
  -- the histogram after the first and after both
  obtain ⟨g, cut, others, parts⟩ := sound.exists_cut covers plain whole starts at_axis first
  obtain ⟨f, once, _, last⟩ := sound.exists_cut covers plain whole starts at_axis both
  obtain ⟨_, bins, _, family⟩ := ofParts_eq_ok parts
  have axes := bareAxes_of_ofParts plain parts
  have at_rest := getElem?_of_set at_axis axes
  have starts_rest : ∀ c ∈ g.bareAxes, c.StartsSigned := by
    intro c among
    rcases List.mem_or_eq_of_mem_set (axes ▸ among) with old | rfl
    · exact starts c old
    · exact Axis.startsSigned_of_slice explicit first
  have whole_rest : g.bins.kind.isIntegral = true := by
    rw [bins, moved, Bins.kind_gather]
    exact whole
  have again : ofParts r (g.bareAxes.set d new) (g.moved (g.cutting d b new m n)) g.family =
      .ok f := by
    rw [sound.moved_cutting others starts starts_rest at_axis first second both axes whole bins,
      axes, List.set_set, family, last]
  have twice := others.cut_of_ofParts at_rest second starts_rest plain whole_rest again
  exact ⟨b, g, f, cut, at_rest, twice, once,
    fun i k => Axis.kept_kept_iff size inside some_rest rest⟩

/-- Whole counts over four integers, with flow bins, and two labels. -/
def labelledRange : Histogram where
  axes :=
    [⟨⟨2, "Integer", .main⟩, .integer ⟨0, 4⟩, .flow, none⟩,
      ⟨⟨3, "Category", .main⟩, .category (.texts ["a", "b"]), { overflow := true }, none⟩]
  storage := ⟨⟨4, "Int", .main⟩, .int⟩
  bins := .empty .int 18
  family := .main

/-- One entry below the integers, one above them and one among them. -/
def labelledEntries : Histogram :=
  (labelledRange.fillAll .builtin
    [[.int (-1), .text "a"], [.int 4, .text "b"], [.int 2, .text "c"]]).state

theorem reachable_labelledEntries : labelledEntries.Reachable := by
  have range : Blueprint.build (.integer 0 4) .flow none = .ok ⟨.integer ⟨0, 4⟩, .flow, none⟩ := rfl
  have labels : Blueprint.build (.category [.text "a", .text "b"]) {} none =
      .ok ⟨.category (.texts ["a", "b"]), { overflow := true }, none⟩ := rfl
  have new : Histogram.new .builtin labelledRange.axes .int = .ok labelledRange := rfl
  refine .fillAll (.new Registry.builtin_keepsShape ?_ new (by decide))
    Registry.builtin_keepsShape (by decide +kernel)
  exact List.forall_mem_cons.mpr ⟨.built range, List.forall_mem_singleton.mpr (.built labels)⟩

/-- The last three of the integers and then the last two of these: the entry above them
is still there. -/
theorem cut_twice_labelledEntries : ∃ b g f,
    CutTwice .builtin labelledEntries 0 ⟨.integer ⟨0, 4⟩, .flow, none⟩ 1 4 1 3 b g f ∧
      f.contentAt [2, 1] = .ok (.count 1) := by
  have starts : ∀ a ∈ labelledEntries.bareAxes, a.StartsSigned := by decide +kernel
  obtain ⟨b, g, f, twice⟩ := reachable_labelledEntries.cut_twice .builtin Registry.builtin_plain rfl
    starts (d := 0) rfl rfl (show 1 < 4 by decide) (Nat.le_refl 4) (show 1 < 3 by decide)
    (show 3 ≤ 4 - 1 by decide)
  have above : f.contentAt [2, 1] = labelledEntries.contentAt [4, 1] :=
    twice.both.kept [4, 1] 4 2 (by decide +kernel) rfl (by decide)
  exact ⟨b, g, f, twice, above.trans rfl⟩

end Binning.Histogram
