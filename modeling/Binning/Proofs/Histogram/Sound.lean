import Binning.Proofs.Histogram.Growth
import Binning.Proofs.Layout

/-! What holds of every histogram: the axes have bins, the storage has one slot
for each tuple of slots of the axes, and its counts are words. New histograms
have it, and whatever is recorded keeps it. -/
namespace Binning.Histogram
open Results

/-- The bins can be numbered by signed words, as those in memory are. -/
def Allocated (h : Histogram) : Prop := Layout.volume h.extents < 2 ^ 63

instance (h : Histogram) : Decidable h.Allocated := inferInstanceAs (Decidable (_ < _))

structure Sound (h : Histogram) : Prop where
  made : ∀ a ∈ h.axes, a.axis.Made
  allocated : h.Allocated
  length : h.bins.length = Layout.volume h.extents
  kind : h.storage.kind = h.bins.kind
  words : h.bins.Words

variable {h : Histogram}

theorem extents_eq (h : Histogram) : h.extents = h.axes.map fun a => a.axis.extent := by
  rw [extents, bareAxes, List.map_map]
  rfl

theorem mem_bareAxes {a : Axis} : a ∈ h.bareAxes ↔ ∃ c ∈ h.axes, c.axis = a := List.mem_map

theorem Sound.made_bare (sound : h.Sound) : ∀ a ∈ h.bareAxes, a.Made := by
  intro a among
  obtain ⟨c, listed, rfl⟩ := mem_bareAxes.mp among
  exact sound.made c listed

theorem Sound.sized (sound : h.Sound) : ∀ a ∈ h.bareAxes, 0 < a.size :=
  fun a among => (sound.made_bare a among).size_pos

theorem zero_not_mem_of_made {axes : List Axis} (made : ∀ a ∈ axes, a.Made) :
    0 ∉ axes.map Axis.extent := by
  intro among
  obtain ⟨a, among, zero⟩ := List.mem_map.mp among
  exact absurd zero (Nat.ne_of_gt (Axis.extent_pos (made a among).size_pos))

/-- An axis of a layout that can be allocated has slots that are words. -/
theorem fits_of_volume {axes : List Axis} (made : ∀ a ∈ axes, a.Made)
    (small : Layout.volume (axes.map Axis.extent) < 2 ^ 63) : ∀ a ∈ axes, a.Fits := by
  intro a among
  exact Nat.lt_of_le_of_lt
    (Layout.le_volume_of_mem (zero_not_mem_of_made made) (List.mem_map_of_mem among)) small

theorem Sound.fits (sound : h.Sound) : ∀ a ∈ h.bareAxes, a.Fits :=
  fits_of_volume sound.made_bare sound.allocated

theorem Sound.fits_classed (sound : h.Sound) : ∀ a ∈ h.axes, a.axis.Fits := by
  intro a among
  exact sound.fits _ (mem_bareAxes.mpr ⟨a, among, rfl⟩)

/-! ### New and recast histograms -/

section
variable {r : Registry} {family : Family}

theorem cast_axes (keeps : r.KeepsShape) {axes : List Axis} {classed : List ClassedAxis}
    (made : ∀ a ∈ axes, a.Made)
    (cast : List.Forall₂ (fun a c => ClassedAxis.cast r (some family) a = .ok c) axes classed) :
    (∀ c ∈ classed, c.axis.Made) ∧
      List.Forall₂ Axis.SameShape axes (classed.map ClassedAxis.axis) := by
  induction cast with
  | nil => exact ⟨fun _ none => absurd none List.not_mem_nil, .nil⟩
  | cons first _ ih =>
    obtain ⟨head, tail⟩ := List.forall_mem_cons.mp made
    obtain ⟨rest, shapes⟩ := ih tail
    exact ⟨List.forall_mem_cons.mpr ⟨head.cast keeps first, rest⟩,
      .cons (ClassedAxis.axis_of_cast keeps first) shapes⟩

theorem inFamily_eq_ok {kind : StorageKind} {storage : Storage}
    (done : Storage.inFamily r family kind = .ok storage) : storage.kind = kind := by
  simp only [Storage.inFamily, bind_eq_ok, pure_eq_ok] at done
  obtain ⟨_, _, rfl⟩ := done
  rfl

theorem sound_new (keeps : r.KeepsShape) {axes : List ClassedAxis} {kind : StorageKind}
    (made : ∀ a ∈ axes, a.axis.Made) (done : Histogram.new r axes kind family = .ok h)
    (allocated : h.Allocated) : h.Sound := by
  simp only [Histogram.new, guard_eq_ok, bind_eq_ok, mapM_eq_ok, pure_eq_ok] at done
  obtain ⟨_, classed, cast, storage, stored, rfl⟩ := done
  have made : ∀ a ∈ axes.map ClassedAxis.axis, a.Made := by
    intro a among
    obtain ⟨c, listed, rfl⟩ := List.mem_map.mp among
    exact made c listed
  refine ⟨(cast_axes keeps made (List.forall₂_map_left_iff.mpr cast)).1, allocated, ?_, ?_, ?_⟩
  · rw [Bins.length_empty, extents_eq]
  · rw [Bins.kind_empty, inFamily_eq_ok stored]
  · exact Bins.words_empty _ _

theorem ofParts_eq_ok {axes : List Axis} {bins : Bins}
    (done : ofParts r axes bins family = .ok h) :
    List.Forall₂ (fun a c => ClassedAxis.cast r (some family) a = .ok c) axes h.axes ∧
      h.bins = bins ∧ h.storage.kind = bins.kind ∧ h.family = family := by
  simp only [ofParts, bind_eq_ok, mapM_eq_ok, pure_eq_ok] at done
  obtain ⟨classed, cast, storage, stored, rfl⟩ := done
  exact ⟨cast, rfl, inFamily_eq_ok stored, rfl⟩

theorem sound_ofParts (keeps : r.KeepsShape) {axes : List Axis} {bins : Bins}
    (done : ofParts r axes bins family = .ok h) (made : ∀ a ∈ axes, a.Made)
    (small : Layout.volume (axes.map Axis.extent) < 2 ^ 63)
    (length : bins.length = Layout.volume (axes.map Axis.extent)) (words : bins.Words) :
    h.Sound := by
  obtain ⟨cast, rfl, kind, _⟩ := ofParts_eq_ok done
  obtain ⟨made, shapes⟩ := cast_axes keeps made cast
  have same : axes.map Axis.extent = h.extents := Axis.extents_of_sameShape shapes
  rw [same] at small length
  exact ⟨made, small, length, kind, words⟩

end

/-! ### Fills -/

section
variable {r : Registry} {placements : List Axis.Placement}

theorem Sound.grow (sound : h.Sound) (keeps : r.KeepsShape) {grown : Histogram}
    {coords : List Coord} (located : h.locate coords = .ok placements)
    (grows : h.grow r placements = .ok grown) (allocated : grown.Allocated) : grown.Sound := by
  obtain ⟨routes, placed, same⟩ := grow_eq_ok located grows
  have shapes := Axis.extents_of_sameShape (placed.sameShape keeps sound.made)
  refine ⟨placed.made keeps sound.made, allocated, ?_, ?_, ?_⟩
  · rw [same]
    exact (Bins.length_gather ..).trans (congrArg Layout.volume shapes)
  · rw [same]
    exact sound.kind.trans (Bins.kind_gather ..).symm
  · rw [same]
    exact Bins.words_gather _ _ _

/-- The entry in the bins, if it has a position. -/
def enter (h : Histogram) (placements : List Axis.Placement) (weight sample : Option Float) :
    Bins :=
  match h.position? placements with
  | some j => h.bins.record j weight sample
  | none => h.bins

@[simp] theorem kind_enter (placements : List Axis.Placement) (weight sample : Option Float) :
    (h.enter placements weight sample).kind = h.bins.kind := by
  unfold Histogram.enter
  split
  · exact Bins.kind_record ..
  · rfl

theorem eq_of_entered {recorded : Histogram} {weight sample : Option Float}
    (entered : (match h.position? placements with
      | some j => return { h with bins := h.bins.record j weight sample }
      | none => return h : Except Error Histogram) = .ok recorded) :
    recorded = { h with bins := h.enter placements weight sample } := by
  unfold enter
  cases position : h.position? placements with
  | some j =>
    rw [position] at entered
    cases entered
    rfl
  | none =>
    rw [position] at entered
    cases entered
    rfl

/-- The axes grow first, if any has to, and the entry comes after. -/
theorem record_eq_ok {recorded : Histogram} {coords : List Coord} {weight sample : Option Float}
    (done : h.record r coords weight sample = .ok recorded) :
    h.storage.kind.checkEntry weight sample = .ok () ∧ ∃ placements grown,
      h.locate coords = .ok placements ∧
      (grown = h ∧ (∀ p ∈ placements, p.grown = none) ∨ h.grow r placements = .ok grown) ∧
      recorded = { grown with bins := grown.enter placements weight sample } := by
  simp only [record, bind_eq_ok, mapError_eq_ok] at done
  obtain ⟨_, admitted, placements, located, done⟩ := done
  refine ⟨admitted, placements, ?_⟩
  split at done <;> rename_i growing
  · obtain ⟨grown, grows, entered⟩ := bind_eq_ok.mp done
    refine ⟨grown, located, .inr grows, ?_⟩
    exact eq_of_entered entered
  · have stays : ∀ p ∈ placements, p.grown = none := by
      intro p among
      rw [← Option.not_isSome_iff_eq_none]
      exact fun grows => growing (List.any_eq_true.mpr ⟨p, among, grows⟩)
    refine ⟨h, located, .inl ⟨rfl, stays⟩, ?_⟩
    obtain ⟨_, same, entered⟩ := bind_eq_ok.mp done
    cases same
    exact eq_of_entered entered

theorem Sound.enter (sound : h.Sound) (placements : List Axis.Placement)
    (weight sample : Option Float) :
    { h with bins := h.enter placements weight sample }.Sound := by
  unfold Histogram.enter
  split
  · refine ⟨sound.made, sound.allocated, ?_, ?_, ?_⟩
    · exact (Bins.length_record ..).trans sound.length
    · exact sound.kind.trans (Bins.kind_record ..).symm
    · exact sound.words.record _ _ _
  · exact sound

theorem Sound.record (sound : h.Sound) (keeps : r.KeepsShape) {recorded : Histogram}
    {coords : List Coord} {weight sample : Option Float}
    (done : h.record r coords weight sample = .ok recorded) (allocated : recorded.Allocated) :
    recorded.Sound := by
  obtain ⟨_, placements, grown, located, grows, rfl⟩ := record_eq_ok done
  rcases grows with ⟨rfl, _⟩ | grows
  · exact sound.enter ..
  · exact (sound.grow keeps located grows allocated).enter ..

theorem larger_of_record (made : ∀ a ∈ h.axes, a.axis.Made) (keeps : r.KeepsShape)
    {recorded : Histogram} {coords : List Coord} {weight sample : Option Float}
    (done : h.record r coords weight sample = .ok recorded) :
    (∀ a ∈ recorded.axes, a.axis.Made) ∧
      Layout.volume h.extents ≤ Layout.volume recorded.extents := by
  obtain ⟨_, placements, grown, located, grows, rfl⟩ := record_eq_ok done
  rcases grows with ⟨rfl, _⟩ | grows
  · exact ⟨made, Nat.le_refl _⟩
  · obtain ⟨routes, placed, _⟩ := grow_eq_ok located grows
    refine ⟨placed.made keeps made, ?_⟩
    rw [extents_eq, extents_eq]
    exact Layout.volume_le_volume (placed.extent_le keeps made)

theorem fillAll_of_ok {first : List Coord} {recorded : Histogram}
    (done : h.record r first = .ok recorded) (rest : List (List Coord)) :
    h.fillAll r (first :: rest) = recorded.fillAll r rest := by
  rw [Histogram.fillAll, done]

theorem fillAll_of_error {first : List Coord} {e : Error} (failed : h.record r first = .error e)
    (rest : List (List Coord)) : h.fillAll r (first :: rest) = ⟨h, .error e⟩ := by
  rw [Histogram.fillAll, failed]

theorem volume_le_of_fillAll (made : ∀ a ∈ h.axes, a.axis.Made) (keeps : r.KeepsShape)
    (coords : List (List Coord)) :
    Layout.volume h.extents ≤ Layout.volume (h.fillAll r coords).state.extents := by
  induction coords generalizing h with
  | nil => exact Nat.le_refl _
  | cons first rest ih =>
    cases done : h.record r first with
    | error =>
      rw [fillAll_of_error done]
    | ok recorded =>
      obtain ⟨made, larger⟩ := larger_of_record made keeps done
      rw [fillAll_of_ok done]
      exact Nat.le_trans larger (ih made)

theorem Sound.fill (sound : h.Sound) (keeps : r.KeepsShape) {coords : List Coord}
    {weight sample : Option Float} (allocated : (h.fill r coords weight sample).state.Allocated) :
    (h.fill r coords weight sample).state.Sound := by
  unfold Histogram.fill at *
  cases done : h.record r coords weight sample with
  | ok recorded =>
    rw [done] at allocated
    exact sound.record keeps done allocated
  | error => exact sound

/-- A run of entries can be allocated all along if it can at its end. -/
theorem Sound.fillAll (sound : h.Sound) (keeps : r.KeepsShape) (coords : List (List Coord))
    (allocated : (h.fillAll r coords).state.Allocated) : (h.fillAll r coords).state.Sound := by
  induction coords generalizing h with
  | nil => exact sound
  | cons first rest ih =>
    cases done : h.record r first with
    | error =>
      rw [fillAll_of_error done]
      exact sound
    | ok recorded =>
      rw [fillAll_of_ok done] at allocated ⊢
      have larger := volume_le_of_fillAll (larger_of_record sound.made keeps done).1 keeps rest
      exact ih (sound.record keeps done (Nat.lt_of_le_of_lt larger allocated)) allocated

theorem Sound.fillValues (sound : h.Sound) (keeps : r.KeepsShape) {values : List Coord}
    (allocated : (h.fillValues r values).state.Allocated) :
    (h.fillValues r values).state.Sound := by
  unfold Histogram.fillValues at *
  split
  · exact sound
  · rename_i one
    rw [if_neg one] at allocated
    exact sound.fillAll keeps _ allocated

/-- Entries from writers that share the bins are counted where others are. -/
theorem recordShared_eq_ok {recorded : Histogram} {coords : List Coord}
    (done : h.recordShared coords = .ok recorded) :
    h.storage.kind = .atomicInt ∧ (∀ a ∈ h.axes, a.axis.options.growth = false) ∧
      ∃ placements, h.locate coords = .ok placements ∧
        recorded = { h with bins := h.enter placements none none } := by
  unfold recordShared at done
  cases growing : h.axes.find? (·.axis.options.growth) with
  | some a =>
    simp only [growing, bind_eq_ok, throw_eq_ok, false_and, exists_false] at done
  | none =>
  have none_grows := List.find?_eq_none.mp growing
  simp only [growing, guard_eq_ok, bind_eq_ok, mapError_eq_ok, not_not] at done
  obtain ⟨shared, placements, located, done⟩ := done
  refine ⟨shared, ?_, placements, located, ?_⟩
  · simpa using none_grows
  · unfold enter
    cases position : h.position? placements with
    | some j =>
      simp only [position, bind_eq_ok, mapError_eq_ok, pure_eq_ok] at done
      obtain ⟨bins, counted, rfl⟩ := done
      rw [(Bins.recordShared_eq_record _ counted).2]
    | none =>
      rw [position] at done
      cases done
      rfl

theorem Sound.fillShared (sound : h.Sound) (coords : List Coord) :
    (h.fillShared coords).state.Sound := by
  unfold Histogram.fillShared
  cases done : h.recordShared coords with
  | error => exact sound
  | ok recorded =>
    obtain ⟨_, _, placements, _, rfl⟩ := recordShared_eq_ok done
    exact sound.enter ..

theorem Sound.reset (sound : h.Sound) : h.reset.Sound := by
  refine ⟨sound.made, sound.allocated, ?_, ?_, ?_⟩
  · exact (Bins.length_empty ..).trans sound.length
  · exact sound.kind.trans (Bins.kind_empty ..).symm
  · exact Bins.words_empty _ _

theorem Sound.scale (sound : h.Sound) (factor : Float) : (h.scale factor).state.Sound := by
  unfold Histogram.scale
  cases done : h.bins.scale factor with
  | error => exact sound
  | ok bins =>
    obtain ⟨length, kind⟩ := Bins.length_scale done
    refine ⟨sound.made, sound.allocated, ?_, ?_, ?_⟩
    · exact length.trans sound.length
    · exact sound.kind.trans kind.symm
    · exact .scale done

end

end Binning.Histogram
