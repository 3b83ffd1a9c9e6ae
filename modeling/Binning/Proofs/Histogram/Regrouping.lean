import Binning.Proofs.Binary64.Special
import Binning.Proofs.Histogram.Additivity
import Binning.Proofs.Histogram.Failures
import Binning.Proofs.Histogram.Groups
import Binning.Proofs.Histogram.Totals
import Binning.Proofs.Index.Rebins

/-! Entries before and after the bins are grouped. A histogram of groups that counts
the same entries mirrors the one with all bins: each entry goes to the group of the
bin that it goes to, so grouping what has been counted is counting in groups. -/
namespace Binning.Histogram
open Results Reduction

variable {r : Registry} {routes : List Route} {told : List Int → Prop} {h fine coarse : Histogram}

/-! ### Mirrors -/

/-- Whole counts along the routes are those of another histogram over the axes that
stay, at least where the indices are told. -/
structure Mirrors (routes : List Route) (told : List Int → Prop) (fine coarse : Histogram) :
    Prop where
  sound : fine.Sound
  other : coarse.Sound
  integral : fine.bins.kind.isIntegral = true
  kind : coarse.bins.kind = fine.bins.kind
  lands : List.Forall₂ (fun a route => Route.Lands a route) fine.bareAxes routes
  stay : List.Forall₂ Axis.SameShape (stay routes) coarse.bareAxes
  cells : ∀ ks, coarse.Addresses ks → told ks →
    (fine.moved routes).tally (coarse.place ks) = coarse.bins.tally (coarse.place ks)

namespace Mirrors
variable (mirrors : Mirrors routes told fine coarse)
include mirrors

theorem fits : ∀ a ∈ Reduction.stay routes, a.Fits :=
  Axis.fits_of_sameShape mirrors.stay mirrors.other.fits

theorem place_eq (ks : List Int) : coarse.place ks = Axis.place (Reduction.stay routes) ks :=
  (Axis.place_of_sameShape mirrors.stay ks).symm

theorem place_lt {ks : List Int} (has : coarse.Addresses ks) :
    coarse.place ks < Layout.volume ((Reduction.stay routes).map Axis.extent) := by
  have inside := mirrors.other.place_lt has
  rwa [mirrors.other.length, extents, ← Axis.extents_of_sameShape mirrors.stay] at inside

/-- What an entry adds where its slot is sent. -/
theorem tally_moved_enter {placements : List Axis.Placement}
    (same : placements.length = fine.rank) (weight : Option Float) {ks : List Int}
    (has : coarse.Addresses ks) {lands : Prop} [Decidable lands]
    (goes : fine.Addresses (placements.map (·.index)) ∧
      Goes fine.bareAxes routes (placements.map (·.index)) ks ↔ lands) :
    ({ fine with bins := fine.enter placements weight none }.moved routes).tally
        (coarse.place ks) =
      if lands then
        fine.bins.kind.hold ((fine.moved routes).tally (coarse.place ks) + amount weight)
      else (fine.moved routes).tally (coarse.place ks) := by
  have below := mirrors.place_lt has
  have sound := mirrors.sound
  change ((fine.enter placements weight none).gather _ (along fine.bareAxes routes)).tally _ = _
  unfold enter
  split
  next j found =>
    obtain ⟨addressed, rfl⟩ := (position?_eq_some_iff same).mp found
    have inside := sound.place_lt addressed
    have sent := along_eq_place_iff mirrors.lands sound.fits mirrors.fits (sound.length ▸ inside)
      ((Axis.addresses_of_sameShape mirrors.stay).mpr has)
    change _ ↔ Goes _ _ (fine.indicesAt _) _ at sent
    rw [sound.indicesAt_place addressed, ← mirrors.place_eq] at sent
    rw [Bins.tally_gather_record mirrors.integral inside weight none below]
    exact if_congr (sent.trans ((and_iff_right addressed).symm.trans goes)) rfl rfl
  next nowhere =>
    rw [if_neg]
    · rfl
    · intro here
      have found := (position?_eq_some_iff same).mpr ⟨(goes.mpr here).1, rfl⟩
      rw [nowhere] at found
      contradiction

/-- An entry keeps the mirror as long as it is sent to the group of its bin. -/
theorem enter {placements groups : List Axis.Placement} (same : placements.length = fine.rank)
    (others : groups.length = coarse.rank) (weight : Option Float)
    (agrees : ∀ ks, coarse.Addresses ks → told ks →
      (fine.Addresses (placements.map (·.index)) ∧
        Goes fine.bareAxes routes (placements.map (·.index)) ks ↔
          ks = groups.map (·.index))) :
    Mirrors routes told { fine with bins := fine.enter placements weight none }
      { coarse with bins := coarse.enter groups weight none } where
  sound := mirrors.sound.enter ..
  other := mirrors.other.enter ..
  integral := by
    rw [kind_enter]
    exact mirrors.integral
  kind := by
    rw [kind_enter, kind_enter]
    exact mirrors.kind
  lands := mirrors.lands
  stay := mirrors.stay
  cells := by
    intro ks has known
    have integral : coarse.bins.kind.isIntegral = true := mirrors.kind ▸ mirrors.integral
    have coarser := mirrors.other.tally_enter integral others weight has
    rw [← mirrors.cells ks has known, mirrors.kind] at coarser
    exact (mirrors.tally_moved_enter same weight has (agrees ks has known)).trans coarser.symm

theorem get_eq {ks : List Int} (has : coarse.Addresses ks) (known : told ks) :
    (fine.moved routes).get (coarse.place ks) = coarse.bins.get (coarse.place ks) := by
  have integral : (fine.moved routes).kind.isIntegral = true := by
    rw [moved, Bins.kind_gather]
    exact mirrors.integral
  rw [Bins.get_eq_count integral, Bins.get_eq_count (mirrors.kind ▸ mirrors.integral),
    mirrors.cells ks has known]

/-- A mirror in which every index is told has all counts. -/
theorem moved_eq (all : ∀ ks, told ks) : fine.moved routes = coarse.bins := by
  have other := mirrors.other
  have kind : coarse.bins.kind = (fine.moved routes).kind :=
    mirrors.kind.trans (Bins.kind_gather ..).symm
  have length : coarse.bins.length = (fine.moved routes).length := by
    rw [other.length, extents, ← Axis.extents_of_sameShape mirrors.stay, moved, Bins.length_gather]
  have integral : (fine.moved routes).kind.isIntegral = true :=
    (mirrors.kind.symm.trans kind) ▸ mirrors.integral
  refine Bins.eq_of_tally integral kind length fun p below => ?_
  rw [← length] at below
  rw [← other.place_indicesAt below]
  exact mirrors.cells _ (other.addresses_indicesAt below) (all _)

end Mirrors
/-! ### One axis of edges -/

/-- Whole counts over a single axis of explicit edges that does not grow. -/
structure Edged (h : Histogram) (a : Axis) (e : Edges) : Prop where
  axes : h.bareAxes = [a]
  law : a.law = .edges e
  fixed : a.options.growth = false
  integral : h.storage.kind.isIntegral = true

variable {a b new : Axis} {e d : Edges} {lo hi merge : Nat}

def entryAt (e : Edges) (x : Float) : List Axis.Placement := [⟨e.index x, 0, none⟩]

theorem locate_edges (law : a.law = .edges e) (fixed : a.options.growth = false) (x : Float) :
    a.locate (.float x) = .ok ⟨e.index x, 0, none⟩ := by
  have index : a.index (.float x) = .ok (e.index x) := by
    simp only [Axis.index, law]
    rfl
  have plain : a.isCategory = false := by
    rw [Axis.isCategory, law]
  unfold Axis.locate
  rw [index, fixed, plain]
  change (if a.InRange (e.index x) then _ else _) = _
  split <;> rfl

namespace Edged
variable (edged : h.Edged a e)
include edged

theorem rank_eq : h.rank = 1 := by
  rw [← length_bareAxes, edged.axes]
  rfl

theorem record (x : Float) :
    h.record r [.float x] = .ok { h with bins := h.enter (entryAt e x) none none } := by
  have located : h.locate [.float x] = .ok (entryAt e x) := by
    rw [locate_eq_ok, edged.rank_eq, edged.axes]
    exact ⟨rfl, .cons (locate_edges edged.law edged.fixed x) .nil⟩
  rw [record_eq_bind, StorageKind.checkEntry_none edged.integral, located]
  rfl

theorem exchange (bins : Bins) : Edged { h with bins } a e :=
  ⟨edged.axes, edged.law, edged.fixed, edged.integral⟩

theorem fillAll_cons (x : Float) (rest : List (List Coord)) :
    h.fillAll r ([.float x] :: rest) =
      { h with bins := h.enter (entryAt e x) none none }.fillAll r rest :=
  fillAll_of_ok (edged.record x) rest

theorem fillValues (xs : List Float) :
    h.fillValues r (xs.map .float) = h.fillAll r (xs.map fun x => [.float x]) := by
  rw [Histogram.fillValues, if_neg (not_not.mpr edged.rank_eq), List.map_map]
  rfl

end Edged

/-- A run of entries keeps the mirror if each of them does. -/
theorem Mirrors.fillAll (mirrors : Mirrors routes told fine coarse) (edged : fine.Edged a e)
    (groups : coarse.Edged b d)
    (agrees : ∀ x ks, coarse.Addresses ks → told ks →
      (fine.Addresses [e.index x] ∧ Goes fine.bareAxes routes [e.index x] ks ↔ ks = [d.index x]))
    (xs : List Float) : ∃ bins counts,
      fine.fillAll r (xs.map fun x => [.float x]) = ⟨{ fine with bins }, .ok ()⟩ ∧
      coarse.fillAll r (xs.map fun x => [.float x]) = ⟨{ coarse with bins := counts }, .ok ()⟩ ∧
      Mirrors routes told { fine with bins } { coarse with bins := counts } := by
  induction xs generalizing fine coarse with
  | nil => exact ⟨_, _, rfl, rfl, mirrors⟩
  | cons x xs ih =>
    rw [List.map_cons, edged.fillAll_cons, groups.fillAll_cons]
    refine ih (mirrors.enter ?_ ?_ none (agrees x)) (edged.exchange _) (groups.exchange _) agrees
    · exact edged.rank_eq.symm
    · exact groups.rank_eq.symm

/-! ### Groups of bins -/

/-- A bin that belongs to a group with a slot has a slot. -/
theorem representable_of_grouped (fits : a.Fits) (cut : a.slice lo hi merge = .ok new) {i k : Int}
    (has : new.representable k = true)
    (grouped : a.Grouped lo hi merge (lo == 0) (hi == a.size) i k) :
    a.representable i = true := by
  obtain ⟨some_bin, inside, positive, size, options, _⟩ := Axis.size_of_slice cut
  rcases grouped with ⟨low, from_low, to_high⟩ | ⟨rfl, _, rfl⟩ | ⟨rfl, _, rfl⟩
  · have above : 0 ≤ k * merge := Int.mul_nonneg low (Int.natCast_nonneg merge)
    exact fits.representable_of_inRange (by omega) (by omega)
  · rw [Axis.representable_under] at has ⊢
    exact options ▸ has
  · rw [← size, (fits.slice cut).representable_beyond, options, ← fits.representable_beyond] at has
    exact has

/-- An entry goes to the group of its bin, where the groups are told. -/
theorem goes_entryAt_iff (fits : a.Fits) (law : a.law = .edges e) (ordered : e.Ordered)
    (cut : a.slice lo hi merge = .ok new) (small : merge ≤ hi - lo) (x : Float) {k : Int}
    (has : new.representable k = true)
    (told : 0 ≤ k ∧ k < ((hi - lo) ⌈/⌉ merge : Nat) ∨ lo = 0 ∧ hi = a.size) :
    a.representable (e.index x) = true ∧
      (Route.regroup a new lo hi merge (lo == 0) (hi == a.size)).index? a (e.index x) = some k ↔
        k = (e.slice lo hi merge).index x := by
  obtain ⟨some_bin, inside, positive, _⟩ := Axis.size_of_slice cut
  have word := Nat.lt_of_le_of_lt a.size_le_extent fits
  have groups := Axis.grouped_index_iff law ordered positive some_bin inside x told
  rw [@eq_comm _ k, ← groups]
  constructor
  · rintro ⟨taken, goes⟩
    exact (Route.index?_regroup fits cut (by omega) taken).mp goes
  · intro grouped
    have taken := representable_of_grouped fits cut has grouped
    exact ⟨taken, (Route.index?_regroup fits cut (by omega) taken).mpr grouped⟩

/-! ### Counting and grouping -/

/-- Edges that are in order are equal to themselves. -/
theorem edges_beq_self (law : a.law = .edges e) (ordered : e.Ordered) : (a == a) = true := by
  have numbers : (e.list == e.list) = true := by
    refine list_beq_iff_forall₂.mpr (List.forall₂_same.mpr fun x among => ?_)
    exact Binary64.beq_self_iff.mpr (Binary64.not_isNaN_of_isFinite (ordered.finite x among))
  obtain ⟨_, options, label⟩ := a
  cases law
  change ((e.list == e.list) && (options == options && label == label)) = true
  rw [numbers, beq_self_eq_true, beq_self_eq_true]
  rfl

theorem ofParts_exchange {axes : List Axis} {bins others : Bins} {family : Family}
    (kind : others.kind = bins.kind) (done : ofParts r axes bins family = .ok h) :
    ofParts r axes others family = .ok { h with bins := others } := by
  simp only [ofParts, bind_eq_ok, pure_eq_ok] at done ⊢
  obtain ⟨classed, cast, storage, stored, rfl⟩ := done
  exact ⟨classed, cast, storage, kind ▸ stored, rfl⟩

namespace Edged

theorem index_rebin (edged : h.Edged a e) (sound : h.Sound) {start stop : Option Loc}
    (ranges : Ranges a start stop lo hi) (cut : a.slice lo hi merge = .ok new) :
    h.index r [.slice ⟨start, stop, some (.rebin merge)⟩] = .histogram <$>
      ofParts r [new] (h.moved [.regroup a new lo hi merge (lo == 0) (hi == a.size)]) h.family := by
  have fits : a.Fits := sound.fits a (edged.axes ▸ List.mem_singleton_self a)
  have routed : Index.routes h.bareAxes [.slice ⟨start, stop, some (.rebin merge)⟩] =
      .ok [.regroup a new lo hi merge (lo == 0) (hi == a.size)] := by
    rw [edged.axes]
    simp only [Index.routes, bind_eq_ok, mapError_eq_ok, mapM_eq_ok]
    exact ⟨_, rfl, .cons (Index.route_rebin fits ranges cut) .nil⟩
  rw [index_eq_bind, routed]
  exact reduce_range_of_some edged.rank_eq.symm (List.cons_ne_nil new [])

end Edged

/-- The indices of groups, and all indices if all bins are in groups. -/
def Told (a : Axis) (lo hi merge : Nat) (ks : List Int) : Prop :=
  (∃ k : Int, ks = [k] ∧ 0 ≤ k ∧ k < ((hi - lo) ⌈/⌉ merge : Nat)) ∨ lo = 0 ∧ hi = a.size

/-- What grouping leaves mirrors what it was made of, and goes on doing so. -/
theorem Edged.mirrors (edged : h.Edged a e) (sound : h.Sound) (other : coarse.Sound)
    (cut : a.slice lo hi merge = .ok new)
    (stay : List.Forall₂ Axis.SameShape [new] coarse.bareAxes)
    (bins : coarse.bins = h.moved [.regroup a new lo hi merge (lo == 0) (hi == a.size)]) :
    Mirrors [.regroup a new lo hi merge (lo == 0) (hi == a.size)] (Told a lo hi merge)
      h coarse where
  sound := sound
  other := other
  integral := sound.kind ▸ edged.integral
  kind := by
    rw [bins]
    exact Bins.kind_gather ..
  lands := by
    have fits : a.Fits := sound.fits a (edged.axes ▸ List.mem_singleton_self a)
    rw [edged.axes]
    exact .cons (Route.lands_regroup (fits.slice cut)) .nil
  stay := stay
  cells := fun ks _ _ => by rw [bins]

theorem Edged.agrees (edged : h.Edged a e) (sound : h.Sound) (ordered : e.Ordered)
    (cut : a.slice lo hi merge = .ok new) (small : merge ≤ hi - lo)
    (stay : List.Forall₂ Axis.SameShape [new] coarse.bareAxes) (x : Float) (ks : List Int)
    (has : coarse.Addresses ks) (told : Told a lo hi merge ks) :
    h.Addresses [e.index x] ∧
      Goes h.bareAxes [.regroup a new lo hi merge (lo == 0) (hi == a.size)] [e.index x] ks ↔
        ks = [(e.slice lo hi merge).index x] := by
  have fits : a.Fits := sound.fits a (edged.axes ▸ List.mem_singleton_self a)
  obtain ⟨k, rfl, taken⟩ : ∃ k, ks = [k] ∧ new.representable k = true := by
    cases (Axis.addresses_of_sameShape stay).mpr has with
    | cons first rest =>
      cases rest
      exact ⟨_, rfl, first⟩
  have told : 0 ≤ k ∧ k < ((hi - lo) ⌈/⌉ merge : Nat) ∨ lo = 0 ∧ hi = a.size := by
    rcases told with ⟨_, same, inside⟩ | whole
    · cases same
      exact .inl inside
    · exact .inr whole
  rw [Addresses, edged.axes, goes_keep_cons_iff rfl, List.singleton_inj,
    ← goes_entryAt_iff fits edged.law ordered cut small x taken told]
  constructor
  · rintro ⟨addressed, sent, _⟩
    exact ⟨(List.forall₂_cons.mp addressed).1, sent⟩
  · rintro ⟨first, sent⟩
    exact ⟨.cons first .nil, sent, .nil⟩

theorem Edged.of_shape (edged : h.Edged a e)
    (stay : List.Forall₂ Axis.SameShape [{ a with law := .edges d }] coarse.bareAxes)
    (kind : coarse.storage.kind = h.storage.kind) : ∃ b, coarse.Edged b d := by
  generalize axes : coarse.bareAxes = kept at stay
  cases stay with
  | cons first rest =>
    cases rest
    obtain ⟨label, rfl⟩ := first
    exact ⟨_, axes, rfl, edged.fixed, kind ▸ edged.integral⟩

theorem Edged.beq_self (edged : h.Edged a e) (sound : h.Sound) (ordered : e.Ordered) :
    (h == h) = true := by
  have selfEqual : SelfEqual h.bareAxes := by
    rw [edged.axes]
    exact List.forall_mem_singleton.mpr (edges_beq_self edged.law ordered)
  have axes : (h.axes == h.axes) = true := axes_beq rfl selfEqual
  have storage : (h.storage == h.storage) = true := beq_self_eq_true h.storage.kind
  change (h.axes == h.axes && h.storage == h.storage && h.bins == h.bins) = true
  rw [axes, storage, Bins.beq_self h.bins (sound.kind ▸ edged.integral)]
  rfl

/-- Counting and grouping in either order: what is counted before it is grouped,
and what is grouped before it is counted. -/
structure Commutes (r : Registry) (h : Histogram) (entries : List Index) (values : List Coord)
    (before after : Histogram) : Prop where
  grouped : ∃ filled, h.fillValues r values = ⟨filled, .ok ()⟩ ∧
    filled.index r entries = .ok (.histogram before)
  counted : ∃ coarse, h.index r entries = .ok (.histogram coarse) ∧
    coarse.fillValues r values = ⟨after, .ok ()⟩
  axes : before.axes = after.axes

/-- Grouping the bins of an axis of edges commutes with counting numbers, whatever
they are: the groups hold the same counts, and if all bins are in groups, flow bins
and all are equal. -/
theorem Reachable.rebin_commutes (reachable : h.Reachable) (known : r.Known)
    (keeps : r.KeepsShape) (edged : h.Edged a e) {start stop : Option Loc}
    (ranges : Ranges a start stop lo hi) (positive : 0 < merge) (small : merge ≤ hi - lo)
    (xs : List Float) : ∃ before after,
      Commutes r h [.slice ⟨start, stop, some (.rebin merge)⟩] (xs.map .float) before after ∧
      (∀ k : Int, 0 ≤ k → k < ((hi - lo) ⌈/⌉ merge : Nat) → ∃ cell,
        before.contentAt [k] = .ok cell ∧ after.contentAt [k] = .ok cell) ∧
      (lo = 0 → hi = a.size → before = after ∧ (before == after) = true) := by
  have sound := reachable.sound
  have among : a ∈ h.bareAxes := edged.axes ▸ List.mem_singleton_self a
  have ordered := (sound.made_bare a among).ordered_edges edged.fixed edged.law
  have cut := Axis.slice_edges edged.law ranges.lt ranges.le_size positive
  obtain ⟨coarse, parts⟩ := ofParts_of_covers known.covers
    [{ a with law := .edges (e.slice lo hi merge) }]
    (h.moved [.regroup a _ lo hi merge (lo == 0) (hi == a.size)]) h.family
  have ahead := edged.index_rebin (r := r) sound ranges cut
  rw [parts] at ahead
  have other := sound.index keeps ahead
  obtain ⟨cast, bins, kind, _⟩ := ofParts_eq_ok parts
  have stay := (cast_axes keeps
    (List.forall_mem_singleton.mpr ((sound.made_bare a among).cut cut)) cast).2
  have kind : coarse.storage.kind = h.storage.kind := by
    rw [kind, sound.kind]
    exact Bins.kind_gather ..
  obtain ⟨b, groups⟩ := edged.of_shape stay kind
  -- both runs go on from a mirror
  obtain ⟨counts, grouped, fills, refills, mirrors⟩ :=
    (edged.mirrors sound other cut stay bins).fillAll (r := r) edged groups
      (edged.agrees sound ordered cut small stay) xs
  have behind := (edged.exchange counts).index_rebin (r := r) mirrors.sound ranges cut
  rw [ofParts_exchange ?_ parts] at behind
  · refine ⟨_, { coarse with bins := grouped },
      ⟨⟨_, (edged.fillValues xs).trans fills, behind⟩,
        ⟨coarse, ahead, (groups.fillValues xs).trans refills⟩, rfl⟩, ?_, ?_⟩
    · intro k low high
      have fits : b.Fits := other.fits b (groups.axes ▸ List.mem_singleton_self b)
      have has : coarse.Addresses [k] := by
        rw [Addresses, groups.axes]
        refine .cons (fits.representable_of_inRange low ?_) .nil
        rwa [Axis.size_of_edges groups.law, Edges.size_slice positive]
      have same := mirrors.get_eq has (.inl ⟨k, rfl, low, high⟩)
      exact ⟨_, contentAt_of_addresses has, same ▸ contentAt_of_addresses has⟩
    · intro from_first to_last
      have same := mirrors.moved_eq fun _ => .inr ⟨from_first, to_last⟩
      change Histogram.mk coarse.axes coarse.storage (moved _ _) coarse.family = _ ∧ _
      rw [same]
      have ordered := ordered.slice positive ranges.lt
        (Axis.size_of_edges edged.law ▸ ranges.le_size)
      exact ⟨rfl, (groups.exchange grouped).beq_self mirrors.other ordered⟩
  · rw [moved, moved, Bins.kind_gather, Bins.kind_gather, ← sound.kind]
    exact mirrors.sound.kind.symm

theorem rebin_commutes_threeBins : ∃ before after,
    Commutes .builtin threeBins (groupsOf 2)
      ([Binary64.nan, Binary64.infinity, -1, 0.5, 2.5].map .float) before after ∧
      before = after ∧ (before == after) = true := by
  let a : Axis := ⟨.edges ⟨[0, 1, 2, 3]⟩, .flow, none⟩
  have edged : threeBins.Edged a ⟨[0, 1, 2, 3]⟩ := ⟨rfl, rfl, rfl, rfl⟩
  have ranges : Ranges a none none 0 3 := ⟨rfl, rfl, by decide⟩
  have small : 2 ≤ 3 - 0 := by decide
  obtain ⟨before, after, commutes, _, whole⟩ :=
    reachable_threeBins.rebin_commutes .builtin Registry.builtin_keepsShape edged ranges
      (by decide) small [Binary64.nan, Binary64.infinity, -1, 0.5, 2.5]
  exact ⟨before, after, commutes, whole rfl rfl⟩

end Binning.Histogram
