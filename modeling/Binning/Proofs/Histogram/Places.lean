import Binning.Histogram.Read
import Binning.Proofs.Histogram.Sound

/-! Places: where a tuple of indices is stored, and the tuple that is stored at
a position. In a sound histogram the two are inverse to each other, and what is
read at a tuple is what is stored at its place. -/
namespace Binning.Histogram
open Results

variable {h : Histogram}

def place (h : Histogram) (indices : List Int) : Nat := Axis.place h.bareAxes indices

def indicesAt (h : Histogram) (p : Nat) : List Int := Axis.indicesAt h.bareAxes p

/-- Every index of a tuple has a slot on its axis. -/
def Addresses (h : Histogram) (indices : List Int) : Prop := Axis.Addresses h.bareAxes indices

instance (h : Histogram) (indices : List Int) : Decidable (h.Addresses indices) :=
  inferInstanceAs (Decidable (Axis.Addresses ..))

namespace Sound
variable (sound : h.Sound)
include sound

theorem place_lt {indices : List Int} (has : h.Addresses indices) :
    h.place indices < h.bins.length := by
  rw [sound.length]
  exact Axis.place_lt sound.fits has

theorem indicesAt_place {indices : List Int} (has : h.Addresses indices) :
    h.indicesAt (h.place indices) = indices :=
  Axis.indicesAt_place sound.fits has

theorem addresses_indicesAt {p : Nat} (below : p < h.bins.length) :
    h.Addresses (h.indicesAt p) := by
  rw [sound.length] at below
  exact Axis.addresses_indicesOf sound.fits (Layout.inside_tuple below)

theorem place_indicesAt {p : Nat} (below : p < h.bins.length) :
    h.place (h.indicesAt p) = p := by
  rw [sound.length] at below
  have inside := Layout.inside_tuple below
  unfold indicesAt Axis.indicesAt place Axis.place
  rw [← extents, Axis.slotsOf_indicesOf sound.fits inside, Layout.position_tuple below]

theorem place_invOn :
    Set.InvOn h.indicesAt h.place {indices | h.Addresses indices} (Set.Iio h.bins.length) :=
  ⟨fun _ has => sound.indicesAt_place has, fun _ below => sound.place_indicesAt below⟩

theorem place_bijOn :
    Set.BijOn h.place {indices | h.Addresses indices} (Set.Iio h.bins.length) :=
  sound.place_invOn.bijOn (fun _ has => sound.place_lt has)
    (fun _ below => sound.addresses_indicesAt below)

theorem place_inj {is js : List Int} (left : h.Addresses is) (right : h.Addresses js) :
    h.place is = h.place js ↔ is = js :=
  sound.place_bijOn.injOn.eq_iff left right

end Sound

/-- The place of a tuple is computed by Horner's rule. -/
theorem place_eq_flat {indices : List Int} (same : indices.length = h.rank) :
    h.place indices = Layout.flat h.extents (Axis.slotsOf h.bareAxes indices) := by
  refine (Layout.flat_eq_position ?_).symm
  rw [Axis.slotsOf, List.length_zipWith, List.length_map, same, bareAxes, List.length_map]
  exact Nat.min_self _

/-! ### Reading -/

theorem slotsAt_of_addresses {axes : List ClassedAxis} {indices : List Int}
    (has : Axis.Addresses (axes.map ClassedAxis.axis) indices) :
    slotsAt axes indices = .ok (Axis.slotsOf (axes.map ClassedAxis.axis) indices) := by
  induction axes generalizing indices with
  | nil =>
    cases has
    rfl
  | cons a axes ih =>
    cases has with
    | cons first has =>
      rw [slotsAt, if_pos first, ih has]
      rfl

theorem addresses_of_slotsAt {axes : List ClassedAxis} {indices : List Int} {slots : List Nat}
    (same : indices.length = axes.length) (done : slotsAt axes indices = .ok slots) :
    Axis.Addresses (axes.map ClassedAxis.axis) indices := by
  induction axes generalizing indices slots with
  | nil =>
    rw [List.length_eq_zero_iff.mp same]
    exact .nil
  | cons a axes ih =>
    cases indices with
    | nil => contradiction
    | cons i indices =>
      rw [slotsAt, ite_throw_eq_ok] at done
      simp only [bind_eq_ok] at done
      obtain ⟨first, slots, done, _⟩ := done
      exact .cons first (ih (Nat.succ.inj same) done)

/-- A tuple that has a place is read there. -/
theorem contentAt_of_addresses {indices : List Int} (has : h.Addresses indices) :
    h.contentAt indices = .ok (h.bins.get (h.place indices)) := by
  have same : indices.length = h.rank := has.length_eq.symm.trans (List.length_map _)
  rw [contentAt, if_neg (not_not.mpr same), slotsAt_of_addresses has]
  rfl

/-- Nothing else can be read. -/
theorem contentAt_eq_ok {indices : List Int} {cell : Cell} :
    h.contentAt indices = .ok cell ↔
      h.Addresses indices ∧ h.bins.get (h.place indices) = cell := by
  constructor
  · intro done
    have has : h.Addresses indices := by
      simp only [contentAt, guard_eq_ok, bind_eq_ok, not_not] at done
      obtain ⟨same, slots, done, _⟩ := done
      exact addresses_of_slotsAt same done
    rw [contentAt_of_addresses has] at done
    exact ⟨has, Except.ok.inj done⟩
  · rintro ⟨has, rfl⟩
    exact contentAt_of_addresses has

theorem slots?_eq_some_iff {axes : List Axis} {indices : List Int}
    (same : indices.length = axes.length) {slots : List Nat} :
    slots? axes indices = some slots ↔
      Axis.Addresses axes indices ∧ Axis.slotsOf axes indices = slots := by
  unfold slots? Axis.Addresses
  rw [mapM_eq_some]
  induction axes generalizing indices slots with
  | nil =>
    rw [List.length_eq_zero_iff.mp same, List.zip_nil_right, List.forall₂_nil_left_iff]
    exact ⟨fun none => ⟨.nil, none.symm⟩, fun both => both.2.symm⟩
  | cons a axes ih =>
    cases indices with
    | nil => contradiction
    | cons i indices =>
      rw [List.zip_cons_cons, List.forall₂_cons_left_iff, List.forall₂_cons]
      simp only [ih (Nat.succ.inj same)]
      simp only [Axis.slot?, Option.ite_none_right_eq_some, Option.some.injEq]
      constructor
      · rintro ⟨s, rest, ⟨first, rfl⟩, ⟨has, rfl⟩, rfl⟩
        exact ⟨⟨first, has⟩, rfl⟩
      · rintro ⟨⟨first, has⟩, rfl⟩
        exact ⟨_, _, ⟨first, rfl⟩, ⟨has, rfl⟩, rfl⟩

/-- A located entry has a position if all of its indices have a slot. -/
theorem position?_eq_some_iff {placements : List Axis.Placement}
    (same : placements.length = h.rank) {j : Nat} :
    h.position? placements = some j ↔
      h.Addresses (placements.map (·.index)) ∧ h.place (placements.map (·.index)) = j := by
  have lengths : (placements.map (·.index)).length = h.bareAxes.length := by
    rw [List.length_map, bareAxes, List.length_map]
    exact same
  simp only [position?, Option.map_eq_some_iff, slots?_eq_some_iff lengths]
  constructor
  · rintro ⟨_, ⟨has, rfl⟩, rfl⟩
    exact ⟨has, rfl⟩
  · rintro ⟨has, rfl⟩
    exact ⟨_, ⟨has, rfl⟩, rfl⟩

end Binning.Histogram
