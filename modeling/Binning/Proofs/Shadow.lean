import Binning.Proofs.Layout
import Binning.Proofs.Reduction
import Binning.Proofs.Routes

/-! The shadow of a position on some of the axes: its place in the layout that has
those axes alone, in any order. A shadow of a shadow is a shadow, and a position is
told by its shadow on all axes. -/
namespace Binning

variable {α β : Type}

/-- The elements at the listed places, in the order of the list. -/
def chosen (xs : List α) (places : List Nat) : List α := places.filterMap (xs[·]?)

theorem chosen_cons {xs : List α} {d : Nat} (exist : d < xs.length) (places : List Nat) :
    chosen xs (d :: places) = xs[d] :: chosen xs places :=
  List.filterMap_cons_some (List.getElem?_eq_getElem exist)

theorem chosen_cons_of_le {xs : List α} {d : Nat} (beyond : xs.length ≤ d) (places : List Nat) :
    chosen xs (d :: places) = chosen xs places :=
  List.filterMap_cons_none (List.getElem?_eq_none beyond)

theorem chosen_map (f : α → β) (xs : List α) (places : List Nat) :
    chosen (xs.map f) places = (chosen xs places).map f := by
  rw [chosen, chosen, List.map_filterMap]
  exact List.filterMap_congr fun d _ => List.getElem?_map

theorem chosen_range (xs : List α) : chosen xs (List.range xs.length) = xs := by
  simpa [chosen] using Reduction.filterMap_range some xs

section
variable {xs : List α} {places : List Nat} (exist : ∀ d ∈ places, d < xs.length)
include exist

theorem length_chosen : (chosen xs places).length = places.length := by
  induction places with
  | nil => rfl
  | cons d places ih =>
    obtain ⟨head, tail⟩ := List.forall_mem_cons.mp exist
    rw [chosen_cons head, List.length_cons, ih tail, List.length_cons]

theorem getElem?_chosen (i : Nat) : (chosen xs places)[i]? = places[i]?.bind (xs[·]?) := by
  induction places generalizing i with
  | nil => rfl
  | cons d places ih =>
    obtain ⟨head, tail⟩ := List.forall_mem_cons.mp exist
    rw [chosen_cons head]
    cases i with
    | zero => exact (List.getElem?_eq_getElem head).symm
    | succ i => exact ih tail i

/-- Choosing from what was chosen is choosing at once. -/
theorem chosen_chosen (others : List Nat) :
    chosen (chosen xs places) others = chosen xs (chosen places others) := by
  rw [chosen, funext (getElem?_chosen exist), chosen, chosen, List.filterMap_filterMap]

end

theorem forall₂_chosen {R : α → β → Prop} {xs : List α} {ys : List β} (related : List.Forall₂ R xs ys)
    (places : List Nat) : List.Forall₂ R (chosen xs places) (chosen ys places) := by
  induction places with
  | nil => exact .nil
  | cons d places ih =>
    rcases Nat.lt_or_ge d xs.length with below | beyond
    · have other := related.length_eq ▸ below
      rw [chosen_cons below, chosen_cons other]
      exact .cons (related.get below other) ih
    · rw [chosen_cons_of_le beyond, chosen_cons_of_le (related.length_eq ▸ beyond)]
      exact ih

theorem chosen_zipWith {γ : Type} (f : α → β → γ) {xs : List α} {ys : List β}
    (same : xs.length = ys.length) (places : List Nat) :
    chosen (List.zipWith f xs ys) places = List.zipWith f (chosen xs places) (chosen ys places) := by
  induction places with
  | nil => rfl
  | cons d places ih =>
    have length : (List.zipWith f xs ys).length = xs.length := by
      rw [List.length_zipWith, same, Nat.min_self]
    rcases Nat.lt_or_ge d xs.length with below | beyond
    · have other : d < ys.length := same ▸ below
      have both : d < (List.zipWith f xs ys).length := length.symm ▸ below
      rw [chosen_cons below, chosen_cons other, chosen_cons both, ih, List.getElem_zipWith,
        List.zipWith_cons_cons]
    · have other : ys.length ≤ d := same ▸ beyond
      have both : (List.zipWith f xs ys).length ≤ d := length.symm ▸ beyond
      rw [chosen_cons_of_le beyond, chosen_cons_of_le other, chosen_cons_of_le both, ih]

/-! ### Orders -/

/-- Where each place stands in an order of all places. -/
def inverse (order : List Nat) : List Nat := (List.range order.length).map order.idxOf

section
variable {order : List Nat} {n : Nat} (perm : order.Perm (List.range n))
include perm

theorem length_of_perm_range : order.length = n := perm.length_eq.trans List.length_range

theorem lt_of_mem_order {d : Nat} (among : d ∈ order) : d < n :=
  List.mem_range.mp (perm.mem_iff.mp among)

theorem lt_of_mem_inverse {d : Nat} (among : d ∈ inverse order) : d < n := by
  obtain ⟨i, below, rfl⟩ := List.mem_map.mp among
  have listed : i ∈ order :=
    perm.mem_iff.mpr (length_of_perm_range perm ▸ below)
  exact length_of_perm_range perm ▸ List.idxOf_lt_length_of_mem listed

theorem nodup_inverse : (inverse order).Nodup := by
  refine List.nodup_range.map_on fun i first j second same => ?_
  have listed : i ∈ order := perm.mem_iff.mpr (length_of_perm_range perm ▸ first)
  exact List.idxOf_inj listed |>.mp same

theorem perm_inverse : (inverse order).Perm (List.range n) := by
  have among : (inverse order).Subperm (List.range n) :=
    (nodup_inverse perm).subperm fun d among => List.mem_range.mpr (lt_of_mem_inverse perm among)
  refine among.perm_of_length_le ?_
  rw [inverse, List.length_map, List.length_range, List.length_range, length_of_perm_range perm]

/-- An order and then its inverse list all places as they are. -/
theorem chosen_inverse : chosen order (inverse order) = List.range n := by
  rw [inverse, length_of_perm_range perm, chosen, List.filterMap_map]
  refine (List.filterMap_congr fun i below => ?_).trans (List.filterMap_some)
  have listed : i ∈ order := perm.mem_iff.mpr below
  rw [Function.comp_apply, List.getElem?_eq_getElem (List.idxOf_lt_length_of_mem listed),
    List.getElem_idxOf]

end

namespace Layout
variable {extents places others : List Nat} {p : Nat}

/-- The place of a position in the layout of the chosen extents. -/
def shadow (extents places : List Nat) (p : Nat) : Nat :=
  position (chosen extents places) (chosen (tuple extents p) places)

theorem Inside.chosen {slots : List Nat} (inside : Inside extents slots) (places : List Nat) :
    Inside (Binning.chosen extents places) (Binning.chosen slots places) :=
  inside_iff_forall₂.mpr (forall₂_chosen (inside_iff_forall₂.mp inside) places)

theorem shadow_position {slots : List Nat} (inside : Inside extents slots) :
    shadow extents places (position extents slots) =
      position (Binning.chosen extents places) (Binning.chosen slots places) := by
  rw [shadow, inside.tuple_position]

theorem shadow_lt (below : p < volume extents) (places : List Nat) :
    shadow extents places p < volume (Binning.chosen extents places) :=
  ((inside_tuple below).chosen places).position_lt

/-- A shadow of a shadow is a shadow. -/
theorem shadow_shadow (exist : ∀ d ∈ places, d < extents.length) (below : p < volume extents) :
    shadow (Binning.chosen extents places) others (shadow extents places p) =
      shadow extents (Binning.chosen places others) p := by
  have inside := inside_tuple below
  have slots : ∀ d ∈ places, d < (tuple extents p).length := inside.length_eq ▸ exist
  rw [shadow, shadow, (inside.chosen places).tuple_position, chosen_chosen exist,
    chosen_chosen slots, shadow]

theorem shadow_range (below : p < volume extents) :
    shadow extents (List.range extents.length) p = p := by
  have slots := chosen_range (tuple extents p)
  rw [(inside_tuple below).length_eq] at slots
  rw [shadow, chosen_range, slots, position_tuple below]

/-- In the inverse order every position is where it was. -/
theorem shadow_inverse {order : List Nat} (perm : order.Perm (List.range extents.length))
    (below : p < volume extents) :
    shadow (Binning.chosen extents order) (inverse order) (shadow extents order p) = p := by
  rw [shadow_shadow (fun d => lt_of_mem_order perm) below, chosen_inverse perm, shadow_range below]

end Layout
end Binning
