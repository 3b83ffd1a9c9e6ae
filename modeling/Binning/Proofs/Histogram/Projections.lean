import Binning.Proofs.Histogram.Effect
import Binning.Proofs.Histogram.FullSlices
import Binning.Proofs.Shadow

/-! Projections. Projecting sends every cell to its shadow on the axes that are kept,
so a projection of a projection is a projection, and one that keeps all axes only
changes their order. -/
namespace Binning
open Results

namespace Reduction

/-- Where the axes that are not kept are summed up, no slot is dropped. -/
theorem sendAll_kept {axes : List Axis} (fits : ∀ a ∈ axes, a.Fits) {slots : List Nat}
    (inside : Layout.Inside (axes.map Axis.extent) slots) (keeps : Nat → Bool) :
    sendAll (axes.mapIdx fun d a =>
        if keeps d then Route.identity a else Route.sum a 0 a.size true true) slots =
      some (slots.mapIdx fun d s => if keeps d then some s else none) := by
  induction axes generalizing slots keeps with
  | nil =>
    cases inside
    rfl
  | cons a axes ih =>
    cases inside with
    | @cons _ s _ slots below inside =>
      obtain ⟨fit, fits⟩ := List.forall_mem_cons.mp fits
      have first : (if keeps 0 then Route.identity a else Route.sum a 0 a.size true true).send s =
          some (if keeps 0 then some s else none) := by
        split
        · rfl
        · exact Route.send_sum_all fit below
      rw [List.mapIdx_cons, List.mapIdx_cons, sendAll, first, ih fits inside (keeps <| · + 1)]
      rfl

end Reduction

namespace Histogram
open Reduction

variable {r : Registry} {h g : Histogram} {kept order : List Nat}

/-- The axes that a projection may keep: some of them, none twice. -/
structure Valid (rank : Nat) (kept : List Nat) : Prop where
  some_kept : kept ≠ []
  once : kept.Nodup
  exist : ∀ d ∈ kept, d < rank

/-- The contents with every cell at its shadow. -/
def shadowed (h : Histogram) (kept : List Nat) : Bins :=
  h.bins.gather (Layout.volume (chosen h.extents kept)) fun p =>
    some (Layout.shadow h.extents kept p)

theorem length_extents (h : Histogram) : h.extents.length = h.rank := by
  rw [extents, List.length_map, length_bareAxes]

theorem Sound.target_projections (sound : h.Sound) (kept : List Nat) {p : Nat}
    (below : p < Layout.volume h.extents) :
    target h.extents (chosen h.extents kept) (projections h.bareAxes kept) kept p =
      some (Layout.shadow h.extents kept p) := by
  have inside := Layout.inside_tuple below
  have sent := sendAll_kept sound.fits inside fun d => decide (d ∈ kept)
  simp only [decide_eq_true_eq] at sent
  rw [target, projections, sent, Option.map_some, Layout.shadow]
  congr 2
  refine List.filterMap_congr fun d among => ?_
  have present (slot : Option Nat) : (slot.map some >>= id) = slot := by cases slot <;> rfl
  simp only [List.getElem?_mapIdx, if_pos among]
  exact present _

theorem Sound.gathered_projections (sound : h.Sound) (exist : ∀ d ∈ kept, d < h.rank) :
    h.gathered (projections h.bareAxes kept) kept = h.shadowed kept := by
  have axes : (Reduction.axes (projections h.bareAxes kept) kept).map Axis.extent =
      chosen h.extents kept := by
    rw [axes_projections (length_bareAxes h ▸ exist), extents, chosen_map]
    rfl
  change h.bins.gather (Layout.volume ((Reduction.axes _ kept).map Axis.extent))
    (target h.extents ((Reduction.axes _ kept).map Axis.extent) _ kept) = _
  rw [axes]
  apply Bins.gather_congr
  intro p below
  exact sound.target_projections kept (sound.length ▸ below)

theorem Sound.project_eq (sound : h.Sound) (valid : Valid h.rank kept) :
    h.project r kept = ofParts r (chosen h.bareAxes kept) (h.shadowed kept) h.family := by
  have checked : checkKept h.rank [] kept = .ok () :=
    checkKept_of_valid valid.once fun d among => ⟨valid.exist d among, List.not_mem_nil⟩
  rw [project_of_checked valid.some_kept checked, sound.gathered_projections valid.exist]
  rfl

/-- A valid projection has the chosen axes and the shadows. -/
structure Projected (h : Histogram) (kept : List Nat) (g : Histogram) : Prop where
  axes : g.bareAxes = chosen h.bareAxes kept
  bins : g.bins = h.shadowed kept
  kind : g.storage.kind = h.storage.kind
  family : g.family = h.family
  sound : g.Sound

theorem Sound.exists_projected (sound : h.Sound) (covers : r.Covers) (plain : r.Plain)
    (valid : Valid h.rank kept) : ∃ g, h.project r kept = .ok g ∧ h.Projected kept g := by
  obtain ⟨g, parts⟩ :=
    ofParts_of_covers covers (chosen h.bareAxes kept) (h.shadowed kept) h.family
  have done : h.project r kept = .ok g := (sound.project_eq valid).trans parts
  obtain ⟨_, bins, kind, family⟩ := ofParts_eq_ok parts
  refine ⟨g, done, bareAxes_of_ofParts plain parts, bins, ?_, family,
    sound.project plain.keepsShape done⟩
  rw [kind, shadowed, Bins.kind_gather, sound.kind]

namespace Projected
variable (projected : h.Projected kept g)
include projected

theorem extents_eq : g.extents = chosen h.extents kept := by
  rw [extents, projected.axes, extents, chosen_map]

theorem rank_eq (exist : ∀ d ∈ kept, d < h.rank) : g.rank = kept.length := by
  rw [← length_bareAxes, projected.axes, length_chosen (length_bareAxes h ▸ exist)]

end Projected

/-! ### Projections of projections -/

theorem Valid.chosen {rank : Nat} {first second : List Nat} (valid : Valid rank first)
    (next : Valid first.length second) : Valid rank (Binning.chosen first second) := by
  have length := length_chosen next.exist
  constructor
  case some_kept =>
    rw [← List.length_pos_iff, length]
    exact List.length_pos_iff.mpr next.some_kept
  case once =>
    refine next.once.filterMap fun i j d left right => ?_
    exact List.getElem?_inj (List.getElem?_eq_some_iff.mp left).1 valid.once
      |>.mp (left.trans right.symm)
  case exist =>
    intro d among
    obtain ⟨i, _, listed⟩ := List.mem_filterMap.mp among
    exact valid.exist d (List.mem_of_getElem? listed)

/-- The shadows of the shadows are those of the contents themselves. -/
theorem Projected.shadowed_eq (projected : h.Projected kept g) (sound : h.Sound)
    (integral : h.bins.kind.isIntegral = true) (exist : ∀ d ∈ kept, d < h.rank)
    (others : List Nat) : g.shadowed others = h.shadowed (chosen kept others) := by
  have exist : ∀ d ∈ kept, d < h.extents.length := length_extents h ▸ exist
  rw [shadowed, projected.extents_eq, projected.bins, shadowed, Bins.gather_gather integral,
    chosen_chosen exist, shadowed]
  · apply Bins.gather_congr
    intro p below
    exact congrArg some (Layout.shadow_shadow exist (sound.length ▸ below))
  · intro p below i sent
    exact Option.some.inj sent ▸ Layout.shadow_lt (sound.length ▸ below) kept

/-! ### Orders -/

theorem valid_of_perm {n : Nat} (positive : 0 < n) (perm : order.Perm (List.range n)) :
    Valid n order := by
  constructor
  case some_kept => exact List.length_pos_iff.mp (length_of_perm_range perm ▸ positive)
  case once => exact perm.nodup_iff.mpr List.nodup_range
  case exist => exact fun d => lt_of_mem_order perm

/-- In an order of all axes every cell has its shadow to itself. -/
theorem Sound.get_shadowed (sound : h.Sound) (apart : h.bins.kind ≠ .unlimited)
    (perm : order.Perm (List.range h.rank)) {p : Nat} (below : p < h.bins.length) :
    (h.shadowed order).get (Layout.shadow h.extents order p) =
      h.bins.kind.merge h.bins.kind.zero (h.bins.get p) := by
  have perm : order.Perm (List.range h.extents.length) := length_extents h ▸ perm
  have alone : Bins.sources (fun p => some (Layout.shadow h.extents order p)) h.bins.length
      (Layout.shadow h.extents order p) = [p] := by
    refine Bins.sources_eq_singleton below rfl fun q inside same => ?_
    have back := Layout.shadow_inverse perm (sound.length ▸ inside)
    rw [Option.some.inj same, Layout.shadow_inverse perm (sound.length ▸ below)] at back
    exact back.symm
  rw [shadowed, Bins.get_gather_of_apart apart (Layout.shadow_lt (sound.length ▸ below) order),
    alone, Bins.merged_eq_merge apart]
  rfl

theorem Projected.addresses (projected : h.Projected kept g) {is : List Int}
    (has : h.Addresses is) : g.Addresses (chosen is kept) := by
  rw [Addresses, projected.axes]
  exact forall₂_chosen has kept

theorem Projected.place_eq (projected : h.Projected kept g) (sound : h.Sound) {is : List Int}
    (has : h.Addresses is) : g.place (chosen is kept) = Layout.shadow h.extents kept (h.place is) := by
  have inside : Layout.Inside h.extents (Axis.slotsOf h.bareAxes is) :=
    Axis.inside_slotsOf sound.fits has
  change Layout.position g.extents (Axis.slotsOf g.bareAxes (chosen is kept)) =
    Layout.shadow h.extents kept (Layout.position h.extents (Axis.slotsOf h.bareAxes is))
  rw [Layout.shadow_position inside, projected.extents_eq, projected.axes, Axis.slotsOf,
    Axis.slotsOf, chosen_zipWith _ has.length_eq]

/-- In another order of the axes every cell is found at its indices in that order. -/
theorem Projected.contentAt_eq (projected : h.Projected order g) (sound : h.Sound)
    (plain : h.bins.kind.isPlain = true) (perm : order.Perm (List.range h.rank)) {is : List Int}
    {y : Cell} (found : h.contentAt is = .ok y) :
    ∃ x, g.contentAt (chosen is order) = .ok x ∧ x.Alike y := by
  obtain ⟨has, rfl⟩ := contentAt_eq_ok.mp found
  refine ⟨_, contentAt_of_addresses (projected.addresses has), ?_⟩
  rw [projected.place_eq sound has, projected.bins,
    sound.get_shadowed (not_unlimited_of_isPlain plain) perm (sound.place_lt has)]
  exact sound.words.alike_merge_zero plain _

/-- One order after the other brings back all cells. -/
theorem Projected.repeats {f : Histogram} (projected : h.Projected order g)
    (back : g.Projected (inverse order) f) (sound : h.Sound) (plain : h.bins.kind.isPlain = true)
    (same : (h == h) = true) (perm : order.Perm (List.range h.rank)) : h.Repeats f := by
  have apart := not_unlimited_of_isPlain plain
  have kind : g.bins.kind = h.bins.kind := projected.bins ▸ Bins.kind_gather ..
  have rank : g.rank = h.rank :=
    (projected.rank_eq fun d => lt_of_mem_order perm).trans (length_of_perm_range perm)
  have listed : order.Perm (List.range h.extents.length) := length_extents h ▸ perm
  have axes : f.bareAxes = h.bareAxes := by
    rw [back.axes, projected.axes, chosen_chosen, chosen_inverse perm, ← length_bareAxes,
      chosen_range]
    exact length_bareAxes h ▸ fun d => lt_of_mem_order perm
  have bins : f.bins.kind = h.bins.kind := by
    rw [back.bins, shadowed, Bins.kind_gather, kind]
  have length : f.bins.length = h.bins.length := by
    rw [back.sound.length, sound.length, extents, axes]
    rfl
  refine repeats_of_cells sound axes (back.kind.trans projected.kind) bins length
    (selfEqual_of_beq same) fun p below => ?_
  have there : Layout.shadow h.extents order p < g.bins.length := by
    rw [projected.sound.length, projected.extents_eq]
    exact Layout.shadow_lt (sound.length ▸ below) order
  have cell := projected.sound.get_shadowed (kind ▸ apart) (rank ▸ perm_inverse perm) there
  rw [projected.extents_eq, Layout.shadow_inverse listed (sound.length ▸ below), ← back.bins, kind,
    projected.bins, sound.get_shadowed apart perm below,
    sound.words.merge_zero_merge_zero plain] at cell
  rw [cell]
  exact (sound.words.alike_merge_zero plain p).beq
    (Bins.get_beq_self (Bool.and_eq_true_iff.mp same).2 below)

/-! ### Laws of projections -/

/-- Projections compose, and those that keep all axes may be undone. -/
structure Projects (r : Registry) (h : Histogram) : Prop where
  valid : ∀ kept, (∃ g, h.project r kept = .ok g) ↔ Valid h.rank kept
  /-- A projection of a projection keeps the axes that the second chooses from the
  first, and so it has the same axes and the same cells. -/
  compose : h.storage.kind.isIntegral = true → ∀ first second, Valid h.rank first →
    Valid first.length second → ∃ g f, h.project r first = .ok g ∧ g.rank = first.length ∧
      g.project r second = .ok f ∧ h.project r (chosen first second) = .ok f
  /-- In another order the cells are found at their indices in that order, and the
  inverse order brings them back. -/
  reorder : h.storage.kind.isPlain = true → (h == h) = true →
    ∀ order, order.Perm (List.range h.rank) → ∃ g f,
      h.project r order = .ok g ∧
      (∀ is y, h.contentAt is = .ok y → ∃ x,
        g.contentAt (chosen is order) = .ok x ∧ (x == y) = true) ∧
      g.project r (inverse order) = .ok f ∧ h.Repeats f

theorem valid_of_project (done : h.project r kept = .ok g) : Valid h.rank kept := by
  simp only [Histogram.project, guard_eq_ok, bind_eq_ok, mapError_eq_ok] at done
  obtain ⟨some_kept, _, checked, _⟩ := done
  obtain ⟨once, exist⟩ := checkKept_eq_ok checked
  exact ⟨by simpa using some_kept, once, fun d among => (exist d among).1⟩

theorem Reachable.projects (reachable : h.Reachable) (known : r.Known) (plain : r.Plain) :
    Projects r h := by
  have sound := reachable.sound
  have covers := known.covers
  constructor
  case valid =>
    intro kept
    constructor
    · rintro ⟨g, done⟩
      exact valid_of_project done
    · intro valid
      obtain ⟨g, done, _⟩ := sound.exists_projected covers plain valid
      exact ⟨g, done⟩
  case compose =>
    intro integral first second valid next
    obtain ⟨g, done, projected⟩ := sound.exists_projected covers plain valid
    have rank := projected.rank_eq valid.exist
    have again : Valid g.rank second := rank ▸ next
    obtain ⟨f, last, _⟩ := projected.sound.exists_projected covers plain again
    refine ⟨g, f, done, rank, last, ?_⟩
    have exist : ∀ d ∈ first, d < h.bareAxes.length := length_bareAxes h ▸ valid.exist
    rw [← last, projected.sound.project_eq again, sound.project_eq (valid.chosen next),
      projected.shadowed_eq sound (sound.kind ▸ integral) valid.exist, projected.axes,
      projected.family, chosen_chosen exist]
  case reorder =>
    intro plain_kind same order perm
    have plain_bins : h.bins.kind.isPlain = true := sound.kind ▸ plain_kind
    have positive : 0 < h.rank := reachable.populated.axes
    obtain ⟨g, done, projected⟩ :=
      sound.exists_projected covers plain (valid_of_perm positive perm)
    have rank : g.rank = h.rank :=
      (projected.rank_eq fun d => lt_of_mem_order perm).trans (length_of_perm_range perm)
    have valid := valid_of_perm positive (perm_inverse perm)
    obtain ⟨f, last, back⟩ := projected.sound.exists_projected covers plain (rank ▸ valid)
    refine ⟨g, f, done, fun is y found => ?_, last,
      projected.repeats back sound plain_bins same perm⟩
    obtain ⟨x, there, alike⟩ := projected.contentAt_eq sound plain_bins perm found
    obtain ⟨has, rfl⟩ := contentAt_eq_ok.mp found
    exact ⟨x, there, alike.beq (Bins.get_beq_self (Bool.and_eq_true_iff.mp same).2
      (sound.place_lt has))⟩

theorem projects_filledPair : Projects .builtin filledPair :=
  reachable_filledPair.projects .builtin Registry.builtin_plain

end Histogram
end Binning
