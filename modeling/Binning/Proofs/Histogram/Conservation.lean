import Binning.Proofs.Axis.Located
import Binning.Proofs.Histogram.Totals

/-! A run of entries into whole counts, some of which are refused. No accepted
entry is lost or counted twice, whatever grows in between: the total is the number
of accepted entries that had a slot, and of those in range when they were made. -/
namespace Binning.Histogram
open Results

/-- An accepted entry: the histogram that it left and its index on each axis. -/
structure Entry where
  after : Histogram
  indices : List Int

/-- The entries that are accepted when the samples are filled one by one. -/
def accepted (r : Registry) (h : Histogram) : List (List Coord) → List Entry
  | [] => []
  | coords :: rest =>
    let filled := h.fill r coords
    match filled.result, h.locate coords with
    | .ok (), .ok placements =>
      ⟨filled.state, placements.map (·.index)⟩ :: accepted r filled.state rest
    | _, _ => accepted r filled.state rest

/-- The histogram that is left when the samples are filled one by one. -/
def fills (r : Registry) (h : Histogram) (samples : List (List Coord)) : Histogram :=
  samples.foldl (fun h coords => (h.fill r coords).state) h

/-- The entry had a slot in the histogram that it left. -/
def Entry.Stored (e : Entry) : Prop := e.after.Addresses e.indices

instance (e : Entry) : Decidable e.Stored := inferInstanceAs (Decidable (Addresses ..))

/-- The entry was in range on every axis of the histogram that it left. -/
def Entry.Inside (e : Entry) : Prop := List.Forall₂ Axis.InRange e.after.bareAxes e.indices

instance (e : Entry) : Decidable e.Inside := inferInstanceAs (Decidable (List.Forall₂ ..))

variable {r : Registry} {h after : Histogram} {coords : List Coord} {samples : List (List Coord)}

/-! ### Runs -/

theorem fills_of_error {e : Error} (failed : h.record r coords = .error e)
    (rest : List (List Coord)) :
    h.fills r (coords :: rest) = h.fills r rest ∧
      h.accepted r (coords :: rest) = h.accepted r rest := by
  have filled : h.fill r coords = ⟨h, .error e⟩ := by
    rw [Histogram.fill, failed]
    rfl
  rw [fills, List.foldl_cons, accepted, filled]
  exact ⟨rfl, rfl⟩

theorem fills_of_ok (done : h.record r coords = .ok after) (rest : List (List Coord)) :
    ∃ placements, h.locate coords = .ok placements ∧
      h.fills r (coords :: rest) = after.fills r rest ∧
      h.accepted r (coords :: rest) =
        ⟨after, placements.map (·.index)⟩ :: after.accepted r rest := by
  obtain ⟨_, placements, _, located, _⟩ := record_eq_ok done
  have filled : h.fill r coords = ⟨after, .ok ()⟩ := by
    rw [Histogram.fill, done]
    rfl
  refine ⟨placements, located, ?_⟩
  rw [fills, List.foldl_cons, accepted, filled, located]
  exact ⟨rfl, rfl⟩

theorem volume_le_of_fills (made : ∀ a ∈ h.axes, a.axis.Made) (keeps : r.KeepsShape)
    (samples : List (List Coord)) :
    Layout.volume h.extents ≤ Layout.volume (h.fills r samples).extents := by
  induction samples generalizing h with
  | nil => exact Nat.le_refl _
  | cons coords rest ih =>
    cases done : h.record r coords with
    | error =>
      rw [(fills_of_error done rest).1]
      exact ih made
    | ok after =>
      obtain ⟨_, _, same, _⟩ := fills_of_ok done rest
      obtain ⟨after_made, larger⟩ := larger_of_record made keeps done
      rw [same]
      exact Nat.le_trans larger (ih after_made)

/-- A run can be allocated all along if it can at its end. -/
theorem Sound.after_of_fills (sound : h.Sound) (keeps : r.KeepsShape)
    (done : h.record r coords = .ok after) {rest : List (List Coord)}
    (allocated : (after.fills r rest).Allocated) :
    after.Sound := by
  have larger := volume_le_of_fills (larger_of_record sound.made keeps done).1 keeps rest
  exact sound.record keeps done (Nat.lt_of_le_of_lt larger allocated)

theorem Sound.fills (sound : h.Sound) (keeps : r.KeepsShape)
    (allocated : (h.fills r samples).Allocated) :
    (h.fills r samples).Sound ∧ ∀ e ∈ h.accepted r samples, e.after.Sound := by
  induction samples generalizing h with
  | nil => exact ⟨sound, fun _ among => absurd among List.not_mem_nil⟩
  | cons coords rest ih =>
    cases done : h.record r coords with
    | error =>
      obtain ⟨last, entries⟩ := fills_of_error done rest
      rw [last] at allocated ⊢
      rw [entries]
      exact ih sound allocated
    | ok after =>
      obtain ⟨_, _, last, entries⟩ := fills_of_ok done rest
      rw [last] at allocated ⊢
      rw [entries]
      have after_sound := sound.after_of_fills keeps done allocated
      obtain ⟨last_sound, others⟩ := ih after_sound allocated
      exact ⟨last_sound, List.forall_mem_cons.mpr ⟨after_sound, others⟩⟩

theorem kind_fills : (h.fills r samples).bins.kind = h.bins.kind := by
  induction samples generalizing h with
  | nil => rfl
  | cons coords rest ih =>
    cases done : h.record r coords with
    | error =>
      rw [(fills_of_error done rest).1]
      exact ih
    | ok after =>
      obtain ⟨_, _, last, _⟩ := fills_of_ok done rest
      rw [last, ih, kind_of_record done]

/-- The entries of a run are added to those before it. -/
theorem Sound.entries_fills (sound : h.Sound) (keeps : r.KeepsShape)
    (integral : h.bins.kind.isIntegral = true) (allocated : (h.fills r samples).Allocated)
    (room : h.entries true + (h.accepted r samples).length < 2 ^ 64) (flow : Bool) :
    (h.fills r samples).entries flow = h.entries flow + (h.accepted r samples).countP fun e =>
      e.Stored ∧ Axis.Counted e.after.bareAxes flow e.indices := by
  induction samples generalizing h with
  | nil => rfl
  | cons coords rest ih =>
    cases done : h.record r coords with
    | error =>
      obtain ⟨last, entries⟩ := fills_of_error done rest
      rw [last] at allocated ⊢
      rw [entries] at room ⊢
      exact ih sound integral allocated room
    | ok after =>
      obtain ⟨placements, located, last, entries⟩ := fills_of_ok done rest
      rw [last] at allocated ⊢
      rw [entries, List.length_cons] at room
      have after_sound := sound.after_of_fills keeps done allocated
      have after_kind : after.bins.kind.isIntegral = true := kind_of_record done ▸ integral
      have step := sound.entries_record keeps integral located done after_sound.allocated (by omega)
      have after_room : after.entries true + (after.accepted r rest).length < 2 ^ 64 := by
        have one := step true
        split at one <;> omega
      rw [ih after_sound after_kind allocated after_room, step flow, entries, List.countP_cons,
        Nat.add_assoc, Nat.add_comm (List.countP _ _)]
      congr 2
      simp only [decide_eq_true_eq]
      rfl

/-! ### Complete axes -/

section
variable {family : Family} {axes news : List ClassedAxis} {placements : List Axis.Placement}
  {routes : List Route}

theorem exists_placed {grown : Histogram} (located : h.locate coords = .ok placements)
    (grows : grown = h ∧ (∀ p ∈ placements, p.grown = none) ∨ h.grow r placements = .ok grown) :
    ∃ routes, Placed r h.family h.axes placements grown.axes routes := by
  rcases grows with ⟨rfl, stays⟩ | grows
  · obtain ⟨arity, places⟩ := locate_eq_ok.mp located
    exact ⟨_, placed_of_located arity places stays⟩
  · obtain ⟨routes, placed, _⟩ := grow_eq_ok located grows
    exact ⟨routes, placed⟩

theorem shape_of_exchanged (keeps : r.KeepsShape) {a new : ClassedAxis} {p : Axis.Placement}
    {route : Route} (grows : growAxis r family a p = .ok (new, route)) :
    (p.grown.getD a.axis).SameShape new.axis := by
  unfold growAxis at grows
  split at grows
  · rename_i kept grown
    simp only [bind_eq_ok, pure_eq_ok] at grows
    obtain ⟨_, cast, same⟩ := grows
    cases same
    rw [grown]
    exact ClassedAxis.axis_of_cast keeps cast
  · rename_i stays
    cases grows
    rw [stays]
    exact .refl _

/-- Each axis stays what it is, but for its bins and its label. -/
theorem Placed.regrown (keeps : r.KeepsShape)
    (placed : Placed r family axes placements news routes) :
    List.Forall₂ (fun a new => Axis.Regrown a.axis new.axis) axes news := by
  induction placed with
  | nil => exact .nil
  | @cons a new _ p _ _ _ _ _ located grows _ ih =>
    refine .cons ?_ ih
    obtain ⟨label, shape⟩ := shape_of_exchanged keeps grows
    rw [shape]
    have same : Axis.Regrown a.axis (p.grown.getD a.axis) := by
      cases grown : p.grown with
      | none => exact .refl _
      | some => exact Axis.regrown_of_locate located grown
    exact ⟨same.continuous, same.regular, same.category, same.whole, same.options⟩

/-- On complete axes every located entry has a slot after growth. -/
theorem Placed.addresses (keeps : r.KeepsShape)
    (placed : Placed r family axes placements news routes) (old : ∀ a ∈ axes, a.axis.Made)
    (complete : ∀ a ∈ axes, a.axis.Complete) (fits : ∀ a ∈ news, a.axis.Fits)
    (small : ∀ a ∈ axes, a.axis.growsWhole = true → ∀ a ∈ news, Word64.InMemory a.axis.size) :
    Axis.Addresses (news.map ClassedAxis.axis) (placements.map (·.index)) := by
  induction placed with
  | nil => exact .nil
  | @cons a new _ p _ _ _ _ _ located grows _ ih =>
    obtain ⟨made, old⟩ := List.forall_mem_cons.mp old
    obtain ⟨head, complete⟩ := List.forall_mem_cons.mp complete
    obtain ⟨fit, fits⟩ := List.forall_mem_cons.mp fits
    obtain ⟨few, small⟩ := List.forall_mem_cons.mp small
    obtain ⟨label, shape⟩ := shape_of_exchanged keeps grows
    refine .cons ?_ (ih old complete fits fun a among whole b listed =>
      small a among whole b (List.mem_cons_of_mem _ listed))
    have exact_size := fun whole => few whole new List.mem_cons_self
    rw [shape] at fit exact_size ⊢
    exact made.representable_of_locate head located fit exact_size

end

theorem Sound.size_le_volume (sound : h.Sound) {a : ClassedAxis} (among : a ∈ h.axes) :
    a.axis.size ≤ Layout.volume h.extents := by
  have bare : a.axis ∈ h.bareAxes := mem_bareAxes.mpr ⟨a, among, rfl⟩
  exact Nat.le_trans a.axis.size_le_extent
    (Layout.le_volume_of_mem (zero_not_mem_of_made sound.made_bare) (List.mem_map_of_mem bare))

theorem Sound.stored_of_complete (sound : h.Sound) (keeps : r.KeepsShape)
    (complete : ∀ a ∈ h.axes, a.axis.Complete) (allocated : (h.fills r samples).Allocated)
    (small : ∀ a ∈ h.axes, a.axis.growsWhole = true →
      Word64.InMemory (Layout.volume (h.fills r samples).extents)) :
    ∀ e ∈ h.accepted r samples, e.Stored := by
  induction samples generalizing h with
  | nil => exact fun _ among => absurd among List.not_mem_nil
  | cons coords rest ih =>
    cases done : h.record r coords with
    | error =>
      obtain ⟨last, entries⟩ := fills_of_error done rest
      rw [last] at allocated small
      rw [entries]
      exact ih sound complete allocated small
    | ok after =>
      obtain ⟨placements, located, last, entries⟩ := fills_of_ok done rest
      rw [last] at allocated small
      rw [entries]
      have after_sound := sound.after_of_fills keeps done allocated
      have larger := volume_le_of_fills after_sound.made keeps rest
      obtain ⟨_, _, grown, same, grows, parts⟩ := record_eq_ok done
      cases located.symm.trans same
      have axes : after.axes = grown.axes := parts ▸ rfl
      obtain ⟨routes, placed⟩ := exists_placed located grows
      rw [← axes] at placed
      have stored := placed.addresses keeps sound.made complete after_sound.fits_classed
        fun a among whole b listed => (small a among whole).mono
          (Nat.le_trans (after_sound.size_le_volume listed) larger)
      have before : ∀ new ∈ after.axes, ∃ a ∈ h.axes, Axis.Regrown a.axis new.axis := by
        intro new among
        obtain ⟨k, below, rfl⟩ := List.getElem_of_mem among
        have regrown := placed.regrown keeps
        have listed := regrown.length_eq ▸ below
        exact ⟨_, List.getElem_mem listed, regrown.get listed below⟩
      refine List.forall_mem_cons.mpr ⟨stored, ih after_sound ?_ allocated ?_⟩
      · intro new among
        obtain ⟨a, listed, regrown⟩ := before new among
        exact (complete a listed).regrown regrown
      · intro new among whole
        obtain ⟨a, listed, regrown⟩ := before new among
        exact small a listed (regrown.whole ▸ whole)

/-! ### Totals -/

/-- What the contents of a histogram tell of the accepted entries of a run that
started empty. -/
structure Conserves (r : Registry) (started last : Histogram) (entries : List Entry) : Prop where
  /-- The total is the number of entries that had a slot on every axis. -/
  stored : last.sum true = .count (entries.countP (·.Stored))
  /-- It is the number of all of them if every axis is complete. An axis that grows
  by whole numbers does so exactly in all sizes that a memory holds. -/
  complete : (∀ a ∈ started.bareAxes, a.Complete) →
    (∀ a ∈ started.bareAxes, a.growsWhole = true → Word64.InMemory last.size) →
    last.sum true = .count entries.length
  /-- Without flow bins, it is the number of those that were in range when they
  were made. -/
  inside : last.sum false = .count (entries.countP (·.Inside))
  project : ∀ kept : List Nat, kept ≠ [] → kept.Nodup → (∀ d ∈ kept, d < last.rank) →
    ∃ projected, last.project r kept = .ok projected ∧ projected.sum true = last.sum true
  index : ∀ expression, List.Forall₂ SumsAll last.bareAxes expression →
    last.index r expression = .ok (.value (last.sum true))

/-- No entry of a run is lost or counted twice. -/
theorem Reachable.conserves (reachable : h.Reachable) (known : r.Known) (keeps : r.KeepsShape)
    (started : h.bins = .empty .int h.bins.length) (samples : List (List Coord))
    (few : (h.accepted r samples).length < 2 ^ 64) (allocated : (h.fills r samples).Allocated) :
    Conserves r h (h.fills r samples) (h.accepted r samples) := by
  have sound := reachable.sound
  have kind : h.bins.kind = .int := started ▸ Bins.kind_empty ..
  have integral : h.bins.kind.isIntegral = true := kind ▸ rfl
  obtain ⟨last_sound, entries_sound⟩ := sound.fills keeps allocated
  have last_integral : (h.fills r samples).bins.kind.isIntegral = true := by
    rwa [kind_fills]
  have empty : ∀ flow, h.entries flow = 0 := entries_of_empty rfl started
  have total := sound.entries_fills keeps integral allocated (by rw [empty]; omega)
  have counted : ∀ flow, (h.fills r samples).sum flow =
      .count ((h.accepted r samples).countP fun e =>
        e.Stored ∧ Axis.Counted e.after.bareAxes flow e.indices) := by
    intro flow
    rw [last_sound.sum_eq last_integral, total, empty, Nat.zero_add, StorageKind.hold_of_lt]
    exact Nat.lt_of_le_of_lt List.countP_le_length few
  have stored : (h.fills r samples).sum true =
      .count ((h.accepted r samples).countP (·.Stored)) := by
    rw [counted]
    congr 1
    apply List.countP_congr
    intro e among
    have fits := (entries_sound e among).fits
    simp only [decide_eq_true_iff]
    exact ⟨And.left, fun stored => ⟨stored, Axis.counted_of_addresses fits stored⟩⟩
  constructor
  case stored => exact stored
  case complete =>
    intro complete small
    have bare : ∀ a ∈ h.axes, a.axis ∈ h.bareAxes :=
      fun a among => mem_bareAxes.mpr ⟨a, among, rfl⟩
    have all := sound.stored_of_complete keeps (fun a among => complete _ (bare a among)) allocated
      fun a among whole => last_sound.length ▸ small _ (bare a among) whole
    rw [stored, List.countP_eq_length.mpr]
    exact fun e among => decide_eq_true (all e among)
  case inside =>
    rw [counted]
    congr 1
    apply List.countP_congr
    intro e among
    have fits := (entries_sound e among).fits
    simp only [decide_eq_true_iff]
    constructor
    · rintro ⟨_, inside⟩
      exact (Axis.counted_inner_iff fits).mp inside
    · intro inside
      have counted := (Axis.counted_inner_iff fits).mpr inside
      exact ⟨Axis.addresses_of_counted_inner fits counted, counted⟩
  case project =>
    intro kept some_kept once exist
    have checked : checkKept (h.fills r samples).rank [] kept = .ok () :=
      checkKept_of_valid once fun d among => ⟨exist d among, List.not_mem_nil⟩
    obtain ⟨projected, cast⟩ := ofParts_of_covers known.covers _ _ _
    have done := (project_of_checked (r := r) some_kept checked).trans cast
    exact ⟨projected, done, last_sound.sum_project keeps last_integral some_kept checked done⟩
  case index => exact fun expression all => last_sound.index_of_sumsAll all

/-- An entry above the second axis, one that is refused, and one that the first axis
grows for. -/
def mixedSamples : List (List Coord) := [[.int 0, .int 5], [.text "x", .int 0], [.int 3, .int 0]]

theorem conserves_growingPair : (growingPair.accepted .builtin mixedSamples).length = 2 ∧
    Conserves .builtin growingPair (growingPair.fills .builtin mixedSamples)
      (growingPair.accepted .builtin mixedSamples) := by
  have two : (growingPair.accepted .builtin mixedSamples).length = 2 := by decide +kernel
  refine ⟨two, ?_⟩
  exact reachable_growingPair.conserves .builtin Registry.builtin_keepsShape rfl mixedSamples
    (two ▸ by decide) (by decide +kernel)

end Binning.Histogram
