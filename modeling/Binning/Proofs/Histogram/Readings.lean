import Binning.Proofs.Histogram.Bounds
import Binning.Proofs.Histogram.FullSlices
import Binning.Proofs.Index.Picks

/-! The ways to read a histogram agree. A bin at one index per axis, an expression that
picks it, and the arrays of all contents accept the same tuples and give the same cells;
the arrays are as long as the axes, and the edges that go with them are one more. -/
namespace Binning

instance (extents slots : List Nat) : Decidable (Layout.Inside extents slots) :=
  decidable_of_iff _ Layout.inside_iff_forall₂.symm

/-! ### Arrays -/

namespace Dense

/-- The element at one position per dimension. -/
def get? {α : Type} (d : Dense α) (slots : List Nat) : Option α :=
  if Layout.Inside d.shape slots then d.data[Layout.position d.shape slots]? else none

end Dense

/-- The positions that an axis takes in an array. -/
def Axis.span (a : Axis) (flow : Bool) : Nat := if flow then a.extent else a.size

theorem Axis.Fits.length_denseEdges {a : Axis} (fits : a.Fits) (flow : Bool) :
    (a.denseEdges flow).length = a.span flow + 1 := by
  unfold denseEdges span
  rw [List.length_map, List.length_range, fits.beyond_eq, a.extent_eq]
  cases flow <;> cases a.options.underflow <;> cases a.options.overflow <;> simp <;> omega

namespace Histogram
open Results

variable {r : Registry} {h : Histogram} {is : List Int} {x : Cell}

/-! ### Picks -/

theorem Sound.index_ofBins_eq_ok (sound : h.Sound) {out : Selection} :
    h.index r (Index.ofBins is) = .ok out ↔ h.Addresses is ∧
      .value ((h.moved (Reduction.selects h.bareAxes is)).get 0) = out := by
  rw [index_eq_bind, bind_eq_ok]
  simp only [Index.routes_ofBins_eq_ok sound.fits]
  have picked (has : h.Addresses is) :
      h.reduce r (Reduction.selects h.bareAxes is) (List.range h.rank) =
        .ok (.value ((h.moved (Reduction.selects h.bareAxes is)).get 0)) := by
    refine reduce_range_of_none ?_ (Reduction.stay_selects ..)
    have same := has.length_eq
    rw [Reduction.selects, List.length_zipWith, ← same, Nat.min_self, length_bareAxes]
  constructor
  · rintro ⟨_, ⟨has, rfl⟩, reduced⟩
    exact ⟨has, Except.ok.inj ((picked has).symm.trans reduced)⟩
  · rintro ⟨has, rfl⟩
    exact ⟨_, ⟨has, rfl⟩, picked has⟩

/-- A single bin is the cell there, up to the sign of a zero. -/
theorem Sound.alike_pick (sound : h.Sound) (counted : h.bins.Counted)
    (unsampled : h.storage.kind.takesSample = false) (has : h.Addresses is) :
    ((h.moved (Reduction.selects h.bareAxes is)).get 0).Alike (h.bins.get (h.place is)) := by
  have fits := sound.fits
  have stays := Reduction.stay_selects h.bareAxes is
  have kept : ∀ a ∈ Reduction.stay (Reduction.selects h.bareAxes is), a.Fits := by simp [stays]
  have lands := Reduction.lands_selects has.length_eq.symm
  have nowhere : Axis.Addresses (Reduction.stay (Reduction.selects h.bareAxes is)) [] :=
    stays ▸ .nil
  have sent {p : Nat} (below : p < h.bins.length) :
      Reduction.along h.bareAxes (Reduction.selects h.bareAxes is) p = some 0 ↔ p = h.place is := by
    have goes := Reduction.along_eq_place_iff lands fits kept (sound.length ▸ below) nowhere
    rw [stays] at goes
    refine goes.trans ((Reduction.goes_selects_iff fits has (sound.addresses_indicesAt below)).trans ?_)
    constructor
    · rintro rfl
      exact (sound.place_indicesAt below).symm
    · rintro rfl
      exact sound.indicesAt_place has
  have zero {p k : Nat} (below : p < h.bins.length)
      (there : Reduction.along h.bareAxes (Reduction.selects h.bareAxes is) p = some k) : k = 0 := by
    have small := Reduction.along_lt lands (sound.length ▸ below) there
    rw [stays] at small
    exact Nat.lt_one_iff.mp small
  refine Bins.alike_gather_of_apart sound.words counted (sound.kind ▸ unsampled)
    (fun p below k there => Reduction.along_lt lands (sound.length ▸ below) there)
    (fun p below q inside k here there => ?_) (sound.place_lt has)
    ((sent (sound.place_lt has)).mpr rfl)
  obtain rfl := zero below here
  rw [(sent below).mp here, (sent inside).mp there]

/-! ### Dense copies -/

theorem Sound.get?_view_true (sound : h.Sound) (has : h.Addresses is) :
    Dense.get? ⟨h.extents, h.bins.cells⟩ (Axis.slotsOf h.bareAxes is) =
      some (h.bins.get (h.place is)) := by
  have below := sound.place_lt has
  refine (if_pos (Axis.inside_slotsOf sound.fits has)).trans ?_
  change h.bins.cells[h.place is]? = _
  simp [Bins.cells, below]

/-- The bins in range lie behind the underflow bins. -/
theorem slotsOf_of_inRange {axes : List Axis} (fits : ∀ a ∈ axes, a.Fits)
    (inside : List.Forall₂ Axis.InRange axes is) :
    Axis.Addresses axes is ∧ Layout.Inside (axes.map Axis.size) (is.map Int.toNat) ∧
      List.zipWith (· + ·) (axes.map (·.options.underflow.toNat)) (is.map Int.toNat) =
        Axis.slotsOf axes is := by
  induction inside with
  | nil => exact ⟨.nil, .nil, rfl⟩
  | @cons a i axes is first _ ih =>
    obtain ⟨fit, fits⟩ := List.forall_mem_cons.mp fits
    obtain ⟨has, inside, slots⟩ := ih fits
    obtain ⟨low, high⟩ := first
    rw [fit.beyond_eq] at high
    have here : a.representable i = true := fit.representable_of_inRange low high
    refine ⟨.cons here has, .cons (by omega) inside, congrArg₂ List.cons ?_ slots⟩
    have slot := fit.cast_slot here
    simp only
    omega

theorem Sound.get?_view_false (sound : h.Sound) (inside : List.Forall₂ Axis.InRange h.bareAxes is) :
    ∃ inner, h.view false = .ok inner ∧ h.Addresses is ∧
      inner.get? (is.map Int.toNat) = some (h.bins.get (h.place is)) := by
  obtain ⟨has, bins, slots⟩ := slotsOf_of_inRange sound.fits inside
  refine ⟨_, sound.view_false, has, ?_⟩
  refine (if_pos bins).trans ?_
  rw [List.getElem?_map, Layout.getElem?_tuples bins, Option.map_some, slots]
  rfl

/-- The cell at a tuple is where Horner's rule puts its slots. -/
theorem contentAt_eq_flat (has : h.Addresses is) :
    h.contentAt is = .ok (h.bins.get (Layout.flat h.extents (Axis.slotsOf h.bareAxes is))) := by
  have same : is.length = h.rank := has.length_eq.symm.trans (length_bareAxes h)
  rw [contentAt_of_addresses has, place_eq_flat same]

/-- So are the cells of the array without flow bins. -/
theorem Sound.view_false_eq_flat (sound : h.Sound) : h.view false =
    .ok ⟨h.bareAxes.map Axis.size, (Layout.tuples (h.bareAxes.map Axis.size)).map fun slots =>
      h.bins.get (Layout.flat h.extents
        (List.zipWith (· + ·) (h.bareAxes.map (·.options.underflow.toNat)) slots))⟩ := by
  rw [sound.view_false]
  congr 2
  apply List.map_congr_left
  intro slots among
  have same := (Layout.mem_tuples.mp among).length_eq
  rw [Layout.flat_eq_position]
  simp [same, extents]

/-- The array of a view has as many positions as each axis. -/
theorem Sound.view_shape (sound : h.Sound) (flow : Bool) :
    ∃ cells, h.view flow = .ok cells ∧ cells.shape = h.bareAxes.map (·.span flow) ∧
      cells.data.length = Layout.volume cells.shape := by
  cases flow with
  | true =>
    refine ⟨_, sound.view_true, rfl, ?_⟩
    change h.bins.cells.length = Layout.volume h.extents
    rw [Bins.cells, List.length_map, List.length_range, sound.length]
  | false =>
    refine ⟨_, sound.view_false, rfl, ?_⟩
    rw [List.length_map, Layout.length_tuples]

/-! ### All readings -/

/-- The ways to read the histogram agree. -/
structure ReadsAlike (h : Histogram) : Prop where
  /-- A tuple of indices is read if it has one for each axis and all have a slot. -/
  read : ∀ is, (∃ x, h.contentAt is = .ok x) ↔ h.Addresses is
  /-- Expressions that pick bins accept the same tuples. -/
  picked : ∀ r is, (∃ out, h.index r (Index.ofBins is) = .ok out) ↔ ∃ x, h.contentAt is = .ok x
  /-- What they give is the same cell, where cells hold numbers and it is not NaN. -/
  scalar : ∀ r is x, h.contentAt is = .ok x → ∃ y, h.index r (Index.ofBins is) = .ok (.value y) ∧
    (h.storage.kind.takesSample = false → (x == x) = true → (y == x) = true)
  /-- The array with flow bins has it at the slots. -/
  flow : ∀ is x, h.contentAt is = .ok x → ∃ cells, h.view true = .ok cells ∧
    cells.get? (Axis.slotsOf h.bareAxes is) = some x
  /-- The array without them has it at the indices, if these are in range. -/
  inner : ∀ is, List.Forall₂ Axis.InRange h.bareAxes is → ∃ x cells,
    h.contentAt is = .ok x ∧ h.view false = .ok cells ∧ cells.get? (is.map Int.toNat) = some x
  /-- All arrays have the same shape. -/
  shapes : ∀ flow, ∃ cells, h.view flow = .ok cells ∧
    h.values flow = .ok (cells.map Cell.value) ∧
    h.variances flow = .ok (cells.map Cell.variance) ∧
    cells.shape = h.bareAxes.map (·.span flow) ∧ cells.data.length = Layout.volume cells.shape
  /-- Along each axis there is one edge more than there are values. -/
  edges : ∀ flow, ∃ values edges, h.dense flow = .ok (values, edges) ∧ h.values flow = .ok values ∧
    List.Forall₂ (fun (n : Nat) (list : List Float) => list.length = n + 1) values.shape edges

theorem Reachable.reads_alike (reachable : h.Reachable) : h.ReadsAlike := by
  have sound := reachable.sound
  have counted := reachable.populated.counted
  have read (is : List Int) : (∃ x, h.contentAt is = .ok x) ↔ h.Addresses is := by
    simp only [contentAt_eq_ok]
    exact ⟨fun ⟨_, has, _⟩ => has, fun has => ⟨_, has, rfl⟩⟩
  constructor
  case read => exact read
  case picked =>
    intro r is
    rw [read]
    simp only [sound.index_ofBins_eq_ok]
    exact ⟨fun ⟨_, has, _⟩ => has, fun has => ⟨_, has, rfl⟩⟩
  case scalar =>
    intro r is x done
    obtain ⟨has, rfl⟩ := contentAt_eq_ok.mp done
    refine ⟨_, sound.index_ofBins_eq_ok.mpr ⟨has, rfl⟩, fun unsampled same => ?_⟩
    exact (sound.alike_pick counted unsampled has).beq same
  case flow =>
    intro is x done
    obtain ⟨has, rfl⟩ := contentAt_eq_ok.mp done
    exact ⟨_, sound.view_true, sound.get?_view_true has⟩
  case inner =>
    intro is inside
    obtain ⟨cells, view, has, cell⟩ := sound.get?_view_false inside
    exact ⟨_, cells, contentAt_of_addresses has, view, cell⟩
  case shapes =>
    intro flow
    obtain ⟨cells, view, shape, length⟩ := sound.view_shape flow
    refine ⟨cells, view, ?_, ?_, shape, length⟩
    · rw [values, view]
      rfl
    · rw [variances, view]
      rfl
  case edges =>
    intro flow
    obtain ⟨cells, view, shape, _⟩ := sound.view_shape flow
    have values : h.values flow = .ok (cells.map Cell.value) := by
      rw [Histogram.values, view]
      rfl
    refine ⟨_, h.bareAxes.map (·.denseEdges flow), ?_, values, ?_⟩
    · rw [dense, values]
      rfl
    · change List.Forall₂ _ cells.shape _
      rw [shape, List.forall₂_map_left_iff, List.forall₂_map_right_iff, List.forall₂_same]
      exact fun a among => (sound.fits a among).length_denseEdges flow

/-- A number beyond the second axis is in the array with flow bins alone. -/
theorem reads_alike_filledPair : filledPair.ReadsAlike ∧
    filledPair.contentAt [1, 2] = .ok (.count 1) :=
  ⟨reachable_filledPair.reads_alike, rfl⟩

end Histogram
end Binning
