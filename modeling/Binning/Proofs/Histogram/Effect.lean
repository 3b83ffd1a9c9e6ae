import Binning.Proofs.Histogram.Moves
import Binning.Proofs.Histogram.Reachable

/-! What one entry does to the contents. Every cell is found again where growth
has carried it, unchanged but for the cell of the entry, which has gained it;
all new cells are empty. -/
namespace Binning.Histogram
open Results

/-- The place of an index on an axis that has grown by `front` bins in front:
the flow bins stay flow bins. -/
def carryIndex (a new : Axis) (front : Nat) (i : Int) : Int :=
  if i = -1 then -1 else if i = a.size then new.size else i + front

/-- The place of a tuple after growth. -/
def carry : List Axis → List Axis.Placement → List Axis → List Int → List Int
  | a :: axes, p :: placements, new :: news, i :: indices =>
    carryIndex a new p.front i :: carry axes placements news indices
  | _, _, _, _ => []

theorem carryIndex_self (a : Axis) (i : Int) : carryIndex a a 0 i = i := by
  unfold carryIndex
  split
  · exact Eq.symm ‹_›
  · split
    · exact Eq.symm ‹_›
    · exact Int.add_zero i

theorem carryIndex_inj {a new : Axis} {front : Nat} {i j : Int} (fits : a.Fits)
    (large : a.size + front ≤ new.size) (left : a.representable i = true)
    (right : a.representable j = true) (same : carryIndex a new front i = carryIndex a new front j) :
    i = j := by
  have bounds := fits.representable_iff_cases.mp left
  have others := fits.representable_iff_cases.mp right
  unfold carryIndex at same
  omega

variable {r : Registry} {family : Family} {axes news : List ClassedAxis}
  {placements : List Axis.Placement} {routes : List Route}

theorem index?_growAxis (keeps : r.KeepsShape) {a new : ClassedAxis} {c : Coord}
    {p : Axis.Placement} {route : Route} (made : a.axis.Made) (fits : a.axis.Fits)
    (new_fits : new.axis.Fits) (located : a.axis.locate c = .ok p)
    (grows : growAxis r family a p = .ok (new, route)) {i : Int}
    (has : a.axis.representable i = true) :
    route.index? a.axis i = some (carryIndex a.axis new.axis p.front i) := by
  obtain ⟨_, size, options, kept, _, ⟨label, shape⟩, kind⟩ :=
    shape_of_growAxis keeps made located grows
  rcases kind with ⟨rfl, rfl, front⟩ | ⟨rfl, _⟩
  · rw [Route.index?_identity fits has, front, carryIndex_self]
  · rw [shape] at new_fits size options ⊢
    exact Route.index?_regrow fits new_fits has options size

section
variable (keeps : r.KeepsShape) (placed : Placed r family axes placements news routes)
  (old : ∀ a ∈ axes, a.axis.Made) (fits : ∀ a ∈ axes, a.axis.Fits)
include keeps placed old fits

/-- A tuple goes to the place where growth carries it, and nowhere else. -/
theorem Placed.goes_iff (new_fits : ∀ a ∈ news, a.axis.Fits) (is ks : List Int)
    (has : Axis.Addresses (axes.map ClassedAxis.axis) is) :
    Reduction.Goes (axes.map ClassedAxis.axis) routes is ks ↔
      carry (axes.map ClassedAxis.axis) placements (news.map ClassedAxis.axis) is = ks := by
  induction placed generalizing is ks with
  | nil =>
    cases has
    constructor
    · rintro ⟨⟩
      rfl
    · rintro rfl
      exact .nil
  | cons located grows _ ih =>
    cases has with
    | cons first has =>
    obtain ⟨head, old⟩ := List.forall_mem_cons.mp old
    obtain ⟨fit, fits⟩ := List.forall_mem_cons.mp fits
    obtain ⟨new_fit, new_fits⟩ := List.forall_mem_cons.mp new_fits
    obtain ⟨_, _, _, kept, stays, _⟩ := shape_of_growAxis keeps head located grows
    have step := index?_growAxis keeps head fit new_fit located grows first
    simp only [List.map_cons, Reduction.goes_keep_iff stays, step, Option.some.injEq, carry,
      ih old fits new_fits _ _ has]
    constructor
    · rintro ⟨_, _, rfl, rfl, rfl⟩
      rfl
    · rintro rfl
      exact ⟨_, _, rfl, rfl, rfl⟩

theorem Placed.carry_inj {is js : List Int}
    (left : Axis.Addresses (axes.map ClassedAxis.axis) is)
    (right : Axis.Addresses (axes.map ClassedAxis.axis) js)
    (same : carry (axes.map ClassedAxis.axis) placements (news.map ClassedAxis.axis) is =
      carry (axes.map ClassedAxis.axis) placements (news.map ClassedAxis.axis) js) : is = js := by
  induction placed generalizing is js with
  | nil =>
    cases left
    cases right
    rfl
  | cons located grows _ ih =>
    cases left with
    | cons left_first left =>
    cases right with
    | cons right_first right =>
    obtain ⟨head, old⟩ := List.forall_mem_cons.mp old
    obtain ⟨fit, fits⟩ := List.forall_mem_cons.mp fits
    obtain ⟨_, size, _⟩ := shape_of_growAxis keeps head located grows
    obtain ⟨first, rest⟩ := List.cons.inj same
    exact congrArg₂ List.cons (carryIndex_inj fit size left_first right_first first)
      (ih old fits left right rest)

end

/-! ### Growth -/

section
variable {h grown : Histogram} (sound : h.Sound) (keeps : r.KeepsShape) {coords : List Coord}
  (located : h.locate coords = .ok placements) (grows : h.grow r placements = .ok grown)
include sound keeps located grows

/-- After growth a cell holds what has been carried to it. -/
theorem Sound.get_grow (allocated : grown.Allocated) (apart : h.bins.kind ≠ .unlimited) :
    (∀ is, h.Addresses is →
      grown.Addresses (carry h.bareAxes placements grown.bareAxes is)) ∧
      ∀ js, grown.Addresses js → grown.bins.get (grown.place js) =
        h.bins.merged (h.sources (fun is js =>
          carry h.bareAxes placements grown.bareAxes is = js) js) := by
  have grown_sound := sound.grow keeps located grows allocated
  obtain ⟨routes, placed, same⟩ := grow_eq_ok located grows
  have shapes := placed.sameShape keeps sound.made
  have kept := Axis.fits_of_sameShape shapes grown_sound.fits
  have lands := placed.lands keeps sound.made kept
  have goes := placed.goes_iff keeps sound.made sound.fits_classed grown_sound.fits_classed
  constructor
  · intro is has
    apply (Axis.addresses_of_sameShape shapes).mp
    exact ((goes is _ has).mpr rfl).addresses lands sound.fits kept has
  · intro js has
    obtain ⟨turn, turning, cells⟩ := sound.get_moved lands kept
      (fun is js => carry h.bareAxes placements grown.bareAxes is = js) (by
        intro p below ks
        rw [decide_eq_true_iff]
        exact (goes _ _ (sound.addresses_indicesAt below)).symm)
    rw [← turning.mergedWith_eq apart, ← cells js ((Axis.addresses_of_sameShape shapes).mpr has),
      Axis.place_of_sameShape shapes, same]
    rfl

/-- Only one cell is carried to a place, if any is. -/
theorem Sound.sources_carry {is : List Int} (has : h.Addresses is) :
    h.sources (fun is js => carry h.bareAxes placements grown.bareAxes is = js)
      (carry h.bareAxes placements grown.bareAxes is) = [h.place is] := by
  obtain ⟨routes, placed, _⟩ := grow_eq_ok located grows
  apply sources_eq_singleton (sound.place_lt has)
  intro p below
  rw [decide_eq_true_iff]
  constructor
  · intro carried
    rw [← placed.carry_inj keeps sound.made sound.fits_classed (sound.addresses_indicesAt below) has
      carried, sound.place_indicesAt below]
  · rintro rfl
    rw [sound.indicesAt_place has]

/-- Growth leaves every cell where it is carried, merged into an empty slot, and
empty slots everywhere else. -/
theorem Sound.grow_contents (allocated : grown.Allocated) (apart : h.bins.kind ≠ .unlimited) :
    (∀ is, h.Addresses is →
      grown.Addresses (carry h.bareAxes placements grown.bareAxes is) ∧
        grown.bins.get (grown.place (carry h.bareAxes placements grown.bareAxes is)) =
          h.bins.kind.merge h.bins.kind.zero (h.bins.get (h.place is))) ∧
      ∀ js, grown.Addresses js →
        (∀ is, h.Addresses is → carry h.bareAxes placements grown.bareAxes is ≠ js) →
          grown.bins.get (grown.place js) = h.bins.kind.zero := by
  obtain ⟨arrives, cells⟩ := sound.get_grow keeps located grows allocated apart
  constructor
  · intro is has
    refine ⟨arrives is has, ?_⟩
    rw [cells _ (arrives is has), sound.sources_carry keeps located grows has,
      Bins.merged_eq_merge apart]
    rfl
  · intro js has new
    have unread : h.sources (fun is js => carry h.bareAxes placements grown.bareAxes is = js) js =
        [] := by
      apply sources_eq_nil
      intro p below
      rw [decide_eq_true_iff]
      exact new _ (sound.addresses_indicesAt below)
    rw [cells js has, unread, Bins.merged_eq_merge apart]
    rfl

end

/-! ### Entries -/

/-- An axis that does not grow is unchanged; another is exchanged for the axis
that it grows to. -/
def Exchanged (r : Registry) (family : Family) (a : ClassedAxis) (p : Axis.Placement)
    (new : ClassedAxis) : Prop :=
  match p.grown with
  | none => new = a
  | some grown => ClassedAxis.cast r (some family) grown = .ok new

theorem Placed.exchanged (placed : Placed r family axes placements news routes) :
    List.Forall₂ (fun ap new => Exchanged r family ap.1 ap.2 new) (axes.zip placements) news := by
  induction placed with
  | nil => exact .nil
  | cons _ grows _ ih =>
    refine .cons ?_ ih
    unfold growAxis at grows
    unfold Exchanged
    split at grows <;> rename_i grown
    · simp only [bind_eq_ok, pure_eq_ok] at grows
      obtain ⟨_, cast, same⟩ := grows
      cases same
      rw [grown]
      exact cast
    · cases grows
      rw [grown]

theorem carry_of_stays {axes : List Axis} {placements : List Axis.Placement} {is : List Int}
    (fronts : ∀ p ∈ placements, p.front = 0) (same : placements.length = axes.length)
    (arity : is.length = axes.length) : carry axes placements axes is = is := by
  induction axes generalizing placements is with
  | nil =>
    rw [List.length_eq_zero_iff.mp arity]
    cases placements <;> rfl
  | cons a axes ih =>
    cases placements with
    | nil => contradiction
    | cons p placements =>
    cases is with
    | nil => contradiction
    | cons i is =>
      obtain ⟨front, fronts⟩ := List.forall_mem_cons.mp fronts
      rw [carry, front, carryIndex_self, ih fronts (Nat.succ.inj same) (Nat.succ.inj arity)]

theorem Sound.front_eq_zero {h : Histogram} (sound : h.Sound) {coords : List Coord}
    (located : h.locate coords = .ok placements) (stays : ∀ p ∈ placements, p.grown = none) :
    ∀ p ∈ placements, p.front = 0 := by
  intro p among
  obtain ⟨a, axis, c, placed⟩ := exists_located located among
  exact Axis.front_of_locate (sound.sized a axis) placed (stays p among)

/-- One more entry is found at its own tuple and nowhere else. -/
theorem Sound.get_enter {h : Histogram} (sound : h.Sound) (apart : h.bins.kind ≠ .unlimited)
    (same : placements.length = h.rank) (weight sample : Option Float) {js : List Int}
    (has : h.Addresses js) :
    (h.enter placements weight sample).get (h.place js) =
      if js = placements.map (·.index) then
        h.bins.kind.enter weight sample (h.bins.get (h.place js))
      else h.bins.get (h.place js) := by
  unfold Histogram.enter
  split
  · rename_i j found
    obtain ⟨placed, rfl⟩ := (position?_eq_some_iff same).mp found
    rw [Bins.get_record _ apart]
    simp only [sound.place_inj has placed, sound.place_lt placed, and_true]
  · rename_i nowhere
    rw [if_neg]
    rintro rfl
    have found := (position?_eq_some_iff same).mpr ⟨has, rfl⟩
    rw [nowhere] at found
    contradiction

/-- The contents before an entry is counted: every cell is where it is carried
and has the same content, also for the entry, and all other cells are empty. -/
structure Carried (h : Histogram) (placements : List Axis.Placement) (weight : Option Float)
    (grown : Histogram) : Prop where
  arrives : ∀ is, h.Addresses is → grown.Addresses (carry h.bareAxes placements grown.bareAxes is)
  kept : ∀ is, h.Addresses is →
    (grown.bins.get (grown.place (carry h.bareAxes placements grown.bareAxes is))).Alike
      (h.bins.get (h.place is))
  entered : ∀ is, h.Addresses is →
    (h.bins.kind.enter weight none
      (grown.bins.get (grown.place (carry h.bareAxes placements grown.bareAxes is)))).Alike
      (h.bins.kind.enter weight none (h.bins.get (h.place is)))
  empty : ∀ js, grown.Addresses js →
    (∀ is, h.Addresses is → carry h.bareAxes placements grown.bareAxes is ≠ js) →
      grown.bins.get (grown.place js) = h.bins.kind.zero

theorem not_unlimited_of_isPlain {kind : StorageKind} (plain : kind.isPlain = true) :
    kind ≠ .unlimited := by
  rintro rfl
  contradiction

/-- Where no axis grows, every cell stays where it is. -/
theorem Sound.carry_of_stays {h : Histogram} (sound : h.Sound) {coords : List Coord}
    (located : h.locate coords = .ok placements) (stays : ∀ p ∈ placements, p.grown = none)
    {is : List Int} (has : h.Addresses is) : carry h.bareAxes placements h.bareAxes is = is := by
  have same : placements.length = h.bareAxes.length :=
    (length_of_locate located).trans (List.length_map _).symm
  exact Histogram.carry_of_stays (sound.front_eq_zero located stays) same has.length_eq.symm

theorem Sound.carried_of_stays {h : Histogram} (sound : h.Sound) {coords : List Coord}
    (weight : Option Float) (located : h.locate coords = .ok placements)
    (stays : ∀ p ∈ placements, p.grown = none) : Carried h placements weight h := by
  constructor
  case arrives =>
    intro is has
    rw [sound.carry_of_stays located stays has]
    exact has
  case kept =>
    intro is has
    rw [sound.carry_of_stays located stays has]
    exact .refl _
  case entered =>
    intro is has
    rw [sound.carry_of_stays located stays has]
    exact .refl _
  case empty =>
    intro js has new
    exact absurd (sound.carry_of_stays located stays has) (new js has)

theorem Sound.carried_of_grow {h grown : Histogram} (sound : h.Sound) (keeps : r.KeepsShape)
    {coords : List Coord} (weight : Option Float) (plain : h.bins.kind.isPlain = true)
    (located : h.locate coords = .ok placements) (grows : h.grow r placements = .ok grown)
    (allocated : grown.Allocated) : Carried h placements weight grown := by
  obtain ⟨old, empty⟩ :=
    sound.grow_contents keeps located grows allocated (not_unlimited_of_isPlain plain)
  constructor
  case arrives => exact fun is has => (old is has).1
  case kept =>
    intro is has
    rw [(old is has).2]
    exact sound.words.alike_merge_zero plain _
  case entered =>
    intro is has
    rw [(old is has).2]
    exact sound.words.alike_enter_merge_zero plain _ _ _
  case empty => exact empty

/-- What one entry of a weight does to a histogram. -/
structure Gained (r : Registry) (h : Histogram) (placements : List Axis.Placement)
    (weight : Option Float) (after : Histogram) : Prop where
  axes : List.Forall₂ (fun ap new => Exchanged r h.family ap.1 ap.2 new)
    (h.axes.zip placements) after.axes
  rest : after.storage = h.storage ∧ after.family = h.family
  /-- Every cell is found where it is carried, and the cell of the entry has
  gained it. -/
  carried : ∀ is cell, h.contentAt is = .ok cell → ∃ found,
    after.contentAt (carry h.bareAxes placements after.bareAxes is) = .ok found ∧
      found.Alike
        (if carry h.bareAxes placements after.bareAxes is = placements.map (·.index) then
          h.storage.kind.enter weight none cell
        else cell)
  /-- The other cells are new, and all but that of the entry are empty. -/
  new : ∀ js, after.Addresses js →
    (∀ is, h.Addresses is → carry h.bareAxes placements after.bareAxes is ≠ js) →
      after.contentAt js = .ok
        (if js = placements.map (·.index) then
          h.storage.kind.enter weight none h.storage.kind.zero
        else h.storage.kind.zero)
  /-- An entry without a slot is not counted anywhere. -/
  missed : ¬ after.Addresses (placements.map (·.index)) →
    (∀ is cell, h.contentAt is = .ok cell → ∃ found,
      after.contentAt (carry h.bareAxes placements after.bareAxes is) = .ok found ∧
        found.Alike cell) ∧
      ∀ js, after.Addresses js →
        (∀ is, h.Addresses is → carry h.bareAxes placements after.bareAxes is ≠ js) →
          after.contentAt js = .ok h.storage.kind.zero

theorem Carried.contentAt {h grown : Histogram} {weight : Option Float}
    (carried : Carried h placements weight grown) (sound : grown.Sound)
    (kind : grown.bins.kind = h.bins.kind) (apart : h.bins.kind ≠ .unlimited)
    (same : placements.length = grown.rank) :
    (∀ is cell, h.contentAt is = .ok cell → ∃ found,
      { grown with bins := grown.enter placements weight none }.contentAt
          (carry h.bareAxes placements grown.bareAxes is) = .ok found ∧
        found.Alike
          (if carry h.bareAxes placements grown.bareAxes is = placements.map (·.index) then
            h.bins.kind.enter weight none cell
          else cell)) ∧
      ∀ js, grown.Addresses js →
        (∀ is, h.Addresses is → carry h.bareAxes placements grown.bareAxes is ≠ js) →
          { grown with bins := grown.enter placements weight none }.contentAt js = .ok
            (if js = placements.map (·.index) then
              h.bins.kind.enter weight none h.bins.kind.zero
            else h.bins.kind.zero) := by
  have entry : ∀ js, grown.Addresses js →
      { grown with bins := grown.enter placements weight none }.contentAt js = .ok
        (if js = placements.map (·.index) then
          h.bins.kind.enter weight none (grown.bins.get (grown.place js))
        else grown.bins.get (grown.place js)) := by
    intro js has
    refine contentAt_eq_ok.mpr ⟨has, ?_⟩
    rw [← kind]
    exact sound.get_enter (kind ▸ apart) same weight none has
  constructor
  · intro is cell found
    obtain ⟨has, rfl⟩ := contentAt_eq_ok.mp found
    refine ⟨_, entry _ (carried.arrives is has), ?_⟩
    split
    · exact carried.entered is has
    · exact carried.kept is has
  · intro js has new
    rw [entry js has, carried.empty js has new]

theorem gained_of_carried {h grown : Histogram} {weight : Option Float} (sound : h.Sound)
    (axes : List.Forall₂ (fun ap new => Exchanged r h.family ap.1 ap.2 new)
      (h.axes.zip placements) grown.axes)
    (rest : grown.storage = h.storage ∧ grown.family = h.family) (grown_sound : grown.Sound)
    (carried : Carried h placements weight grown) (kind : grown.bins.kind = h.bins.kind)
    (apart : h.bins.kind ≠ .unlimited) (same : placements.length = grown.rank) :
    Gained r h placements weight { grown with bins := grown.enter placements weight none } := by
  obtain ⟨old, new⟩ := carried.contentAt grown_sound kind apart same
  rw [← sound.kind] at old new
  constructor
  case axes => exact axes
  case rest => exact rest
  case carried => exact old
  case new => exact new
  case missed =>
    intro nowhere
    constructor
    · intro is cell found
      obtain ⟨_, there, alike⟩ := old is cell found
      rw [if_neg] at alike
      · exact ⟨_, there, alike⟩
      · intro here
        exact nowhere (here ▸ (contentAt_eq_ok.mp there).1)
    · intro js has unread
      have there := new js has unread
      rw [if_neg] at there
      · exact there
      · intro here
        exact nowhere (here ▸ has)

theorem sample_eq_none_of_admitted {kind : StorageKind} (plain : kind.isPlain = true)
    {weight sample : Option Float} (admitted : kind.checkEntry weight sample = .ok ()) :
    sample = none := by
  cases sample with
  | none => rfl
  | some x => cases kind <;> contradiction

theorem record_of_fill {h after : Histogram} {coords : List Coord} {weight sample : Option Float}
    (filled : h.fill r coords weight sample = ⟨after, .ok ()⟩) :
    h.record r coords weight sample = .ok after := by
  unfold Histogram.fill at filled
  cases done : h.record r coords weight sample with
  | error =>
    rw [done] at filled
    cases filled
  | ok =>
    rw [done] at filled
    cases filled
    rfl

/-- One entry makes every cell go where growth carries it, and its own cell
gains it. -/
theorem Reachable.fill_gained {h after : Histogram} (reachable : h.Reachable)
    (keeps : r.KeepsShape) (plain : h.storage.kind.isPlain = true) {coords : List Coord}
    {weight sample : Option Float}
    (filled : h.fill r coords weight sample = ⟨after, .ok ()⟩) (allocated : after.Allocated) :
    ∃ placements, h.locate coords = .ok placements ∧ Gained r h placements weight after := by
  have sound := reachable.sound
  obtain ⟨admitted, placements, grown, located, grows, rfl⟩ :=
    record_eq_ok (record_of_fill filled)
  obtain rfl := sample_eq_none_of_admitted plain admitted
  have same := length_of_locate located
  refine ⟨placements, located, ?_⟩
  rw [sound.kind] at plain
  have apart := not_unlimited_of_isPlain plain
  rcases grows with ⟨rfl, stays⟩ | grows
  · obtain ⟨arity, places⟩ := locate_eq_ok.mp located
    have placed : Placed r grown.family grown.axes placements grown.axes _ :=
      placed_of_located arity places stays
    have carried := sound.carried_of_stays weight located stays
    exact gained_of_carried sound placed.exchanged ⟨rfl, rfl⟩ sound carried rfl apart same
  · obtain ⟨routes, placed, parts⟩ := grow_eq_ok located grows
    have carried := sound.carried_of_grow keeps weight plain located grows allocated
    have grown_sound := sound.grow keeps located grows allocated
    have kind : grown.bins.kind = h.bins.kind := by
      rw [parts]
      exact Bins.kind_gather ..
    exact gained_of_carried sound placed.exchanged (parts ▸ ⟨rfl, rfl⟩) grown_sound carried kind
      apart (same.trans (rank_of_grow located grows).symm)

theorem fill_gained_growingPair : ∃ after placements,
    growingPair.fill .builtin [.int 3, .int 0] = ⟨after, .ok ()⟩ ∧
      growingPair.locate [.int 3, .int 0] = .ok placements ∧
      Gained .builtin growingPair placements none after := by
  have filled : growingPair.fill .builtin [.int 3, .int 0] =
      ⟨(growingPair.fill .builtin [.int 3, .int 0]).state, .ok ()⟩ := rfl
  obtain ⟨placements, located, gained⟩ :=
    reachable_growingPair.fill_gained Registry.builtin_keepsShape rfl filled (by decide +kernel)
  exact ⟨_, placements, filled, located, gained⟩

end Binning.Histogram
