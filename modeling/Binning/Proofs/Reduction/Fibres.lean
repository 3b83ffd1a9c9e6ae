import Binning.Proofs.Reduction.Strides
import Binning.Proofs.Storage.Gather

/-! What a reduction merges into a slot. Each choice of slots on the axes that are kept
has a fibre, the source positions that all axes send there; the cell at the choice's
place is the merge of its fibre. The axes, their routes and the order are arbitrary. -/
namespace Binning

/-- A folded axis admits slot `s`, and one that is kept sends it to slot `t`. -/
def Route.Takes (r : Route) (s t : Nat) : Prop :=
  match r with
  | fold admits => admits s = true
  | keep target _ => target s = some t

instance (r : Route) (s t : Nat) : Decidable (r.Takes s t) := by
  cases r
  · exact inferInstanceAs (Decidable (_ = true))
  · exact inferInstanceAs (Decidable (_ = some t))

theorem Route.takes_iff {r : Route} {s t : Nat} :
    r.Takes s t ↔ r.send s = some (r.axis?.map fun _ => t) := by
  cases r with
  | fold admits => simp [Takes, send, axis?]
  | keep target new => simp [Takes, send, axis?]

namespace Reduction

/-- Every axis takes its slot for the slot `t` has there. -/
def Takes (routes : List Route) (slots : List Nat) (t : Nat → Nat) : Prop :=
  ∀ d (_ : d < routes.length), routes[d].Takes (slots.getD d 0) (t d)

instance (routes : List Route) (slots : List Nat) (t : Nat → Nat) :
    Decidable (Takes routes slots t) :=
  inferInstanceAs (Decidable (∀ d (_ : d < routes.length), _))

/-- The positions below `n` that every axis takes for `t`, in order. -/
def fibre (n : Nat) (extents : List Nat) (routes : List Route) (t : Nat → Nat) : List Nat :=
  (List.range n).filter fun p => Takes routes (Layout.tuple extents p) t

/-- The slots of the axes that are kept, in the order they are laid out. -/
def slotsFor (routes : List Route) (order : List Nat) (t : Nat → Nat) : List Nat :=
  order.filterMap fun d => (kept routes d).map fun _ => t d

def placeFor (routes : List Route) (order : List Nat) (t : Nat → Nat) : Nat :=
  Layout.position ((Reduction.axes routes order).map Axis.extent) (slotsFor routes order t)

/-- A slot below the extent of every axis that is kept. -/
def Within (routes : List Route) (t : Nat → Nat) : Prop :=
  ∀ d new, kept routes d = some new → t d < new.extent

/-- There is a route for every extent, and its slots go below the extent of the axis that
is kept. The order names all axes that are kept, none of them twice. -/
structure Arranged (extents : List Nat) (routes : List Route) (order : List Nat) : Prop where
  lands : List.Forall₂ (fun extent r => Route.LandsWithin extent r) extents routes
  once : order.Nodup
  names : ∀ d new, kept routes d = some new → d ∈ order

variable {extents : List Nat} {routes : List Route} {order : List Nat} {t u : Nat → Nat}

theorem mem_fibre {n p : Nat} : p ∈ fibre n extents routes t ↔
    p < n ∧ Takes routes (Layout.tuple extents p) t := by
  simp [fibre]

/-! ### Slots that are taken -/

theorem sendAll_eq_some_iff {slots : List Nat} (same : slots.length = routes.length)
    {sent : List (Option Nat)} : sendAll routes slots = some sent ↔
      sent.length = routes.length ∧
        ∀ d (below : d < routes.length), routes[d].send (slots.getD d 0) = sent[d]? := by
  constructor
  · intro all
    refine ⟨length_sendAll same all, fun d below => ?_⟩
    have slot : d < slots.length := same ▸ below
    obtain ⟨o, found, step⟩ := getElem?_sendAll all (List.getElem?_eq_getElem below)
      (List.getElem?_eq_getElem slot)
    rw [found, ← step]
    simp [slot]
  · rintro ⟨length, steps⟩
    induction routes generalizing slots sent with
    | nil =>
      obtain rfl := List.length_eq_zero_iff.mp length
      rfl
    | cons route routes ih =>
      cases slots with
      | nil => contradiction
      | cons s slots =>
        cases sent with
        | nil => contradiction
        | cons o sent =>
          have head : route.send s = some o := steps 0 (Nat.succ_pos _)
          have tail := ih (Nat.succ.inj same) (Nat.succ.inj length) fun d below =>
            steps (d + 1) (Nat.succ_lt_succ below)
          simp [sendAll, head, tail]

theorem Parallel.map_getD {a : Option Axis} {s : Option Nat} (parallel : Parallel a s) :
    (a.map fun _ => s.getD 0) = s := by
  cases a <;> cases s <;> first | rfl | contradiction

theorem Parallel.getD_lt {a : Option Axis} {s : Option Nat} (parallel : Parallel a s) {new : Axis}
    (stays : a = some new) : s.getD 0 < new.extent := by
  subst stays
  cases s with
  | none => contradiction
  | some => exact parallel

theorem Takes.congr {slots : List Nat} (takes : Takes routes slots t)
    (same : ∀ d new, kept routes d = some new → t d = u d) : Takes routes slots u := by
  intro d below
  have taken := takes d below
  cases route : routes[d] with
  | fold => simpa [route, Route.Takes] using taken
  | keep target new =>
    have stays : kept routes d = some new := by simp [kept, below, route, Route.axis?]
    rw [← same d new stays, ← route]
    exact taken

/-- Slots are taken for one choice only. -/
theorem Takes.slotsFor_eq {slots : List Nat} (left : Takes routes slots t)
    (right : Takes routes slots u) (order : List Nat) :
    slotsFor routes order t = slotsFor routes order u := by
  apply List.filterMap_congr
  intro d _
  by_cases below : d < routes.length
  · have first := Route.takes_iff.mp (left d below)
    rw [Route.takes_iff.mp (right d below)] at first
    simpa [kept, below] using (Option.some.inj first).symm
  · simp [kept, Nat.le_of_not_lt below]

/-! ### The places of the axes that are kept -/

/-- Where the axes that are kept stand, in the order they are laid out. -/
def places (routes : List Route) (order : List Nat) : List Nat :=
  order.filter fun d => (kept routes d).isSome

theorem mem_places {d : Nat} : d ∈ places routes order ↔
    d ∈ order ∧ ∃ new, kept routes d = some new := by
  rw [places, List.mem_filter, Option.isSome_iff_exists]

theorem nodup_places (once : order.Nodup) : (places routes order).Nodup := once.filter _

/-- What is told of kept axes alone is told of their places. -/
theorem filterMap_places {β : Type} {f : Nat → Option β}
    (only : ∀ d, kept routes d = none → f d = none) (order : List Nat) :
    (places routes order).filterMap f = order.filterMap f := by
  rw [places, List.filterMap_filter]
  apply List.filterMap_congr
  intro d _
  cases stays : kept routes d with
  | none => simp [only d stays]
  | some => simp

theorem axes_eq_places (routes : List Route) (order : List Nat) :
    Reduction.axes routes order = (places routes order).filterMap (kept routes) :=
  (filterMap_places (fun _ folds => folds) order).symm

theorem extents_eq_map (routes : List Route) (order : List Nat) :
    (Reduction.axes routes order).map Axis.extent =
      (places routes order).map fun d => (kept routes d).elim 0 Axis.extent := by
  rw [axes_eq_places, List.map_filterMap, ← List.filterMap_eq_map]
  apply List.filterMap_congr
  intro d among
  obtain ⟨_, new, stays⟩ := mem_places.mp among
  simp [stays]

theorem slotsFor_eq_map (routes : List Route) (order : List Nat) (t : Nat → Nat) :
    slotsFor routes order t = (places routes order).map t := by
  have only (d : Nat) (folds : kept routes d = none) : ((kept routes d).map fun _ => t d) = none := by
    rw [folds, Option.map_none]
  rw [slotsFor, ← filterMap_places only, ← List.filterMap_eq_map]
  apply List.filterMap_congr
  intro d among
  obtain ⟨_, new, stays⟩ := mem_places.mp among
  simp [stays]

theorem inside_slotsFor_iff :
    Layout.Inside ((Reduction.axes routes order).map Axis.extent) (slotsFor routes order t) ↔
      ∀ d ∈ order, ∀ new, kept routes d = some new → t d < new.extent := by
  rw [extents_eq_map, slotsFor_eq_map, Layout.inside_iff_forall₂, List.forall₂_map_left_iff,
    List.forall₂_map_right_iff, List.forall₂_same]
  constructor
  · intro below d among new stays
    simpa [stays] using below d (mem_places.mpr ⟨among, new, stays⟩)
  · intro below d among
    obtain ⟨listed, new, stays⟩ := mem_places.mp among
    simpa [stays] using below d listed new stays

theorem inside_slotsFor (within : Within routes t) (order : List Nat) :
    Layout.Inside ((Reduction.axes routes order).map Axis.extent) (slotsFor routes order t) :=
  inside_slotsFor_iff.mpr fun d _ => within d

theorem eq_of_slotsFor (same : slotsFor routes order t = slotsFor routes order u) {d : Nat}
    (among : d ∈ order) {new : Axis} (stays : kept routes d = some new) : t d = u d := by
  rw [slotsFor_eq_map, slotsFor_eq_map, List.map_inj_left] at same
  exact same d (mem_places.mpr ⟨among, new, stays⟩)

/-- Any slots of the axes in the order are those of a choice. -/
theorem exists_slotsFor (once : order.Nodup) {slots : List Nat}
    (length : slots.length = ((Reduction.axes routes order).map Axis.extent).length) :
    ∃ t, slotsFor routes order t = slots := by
  rw [extents_eq_map, List.length_map] at length
  have apart : (places routes order).Nodup := nodup_places once
  refine ⟨fun d => slots.getD ((places routes order).idxOf d) 0, ?_⟩
  rw [slotsFor_eq_map]
  apply List.ext_getElem
  · rw [List.length_map, length]
  · intro i _ below
    simp [apart.idxOf_getElem, below]

/-! ### Positions and their fibre -/

namespace Arranged
variable (arranged : Arranged extents routes order)
include arranged

theorem perm_axes : (Reduction.axes routes order).Perm (stay routes) := by
  have exist {d : Nat} {new : Axis} (stays : kept routes d = some new) : d < routes.length := by
    obtain ⟨_, listed, _⟩ := Option.bind_eq_some_iff.mp stays
    exact (List.getElem?_eq_some_iff.mp listed).1
  have among : (places routes order).Perm (places routes (List.range routes.length)) := by
    refine (List.perm_ext_iff_of_nodup (nodup_places arranged.once)
      (nodup_places List.nodup_range)).mpr fun d => ?_
    rw [mem_places, mem_places, List.mem_range]
    refine and_congr_left fun ⟨new, stays⟩ => ?_
    exact iff_of_true (arranged.names d new stays) (exist stays)
  rw [← axes_range, axes_eq_places routes order, axes_eq_places]
  exact among.filterMap _

theorem target_of_takes {p : Nat} (below : p < Layout.volume extents)
    (takes : Takes routes (Layout.tuple extents p) t) :
    target extents ((Reduction.axes routes order).map Axis.extent) routes order p =
      some (placeFor routes order t) := by
  have same := (Layout.inside_tuple below).length_eq.trans arranged.lands.length_eq
  have sent (d : Nat) : (routes.mapIdx fun d r => r.axis?.map fun _ => t d)[d]? =
      routes[d]?.map fun r => r.axis?.map fun _ => t d := List.getElem?_mapIdx
  have all : sendAll routes (Layout.tuple extents p) =
      some (routes.mapIdx fun d r => r.axis?.map fun _ => t d) := by
    refine (sendAll_eq_some_iff same).mpr ⟨List.length_mapIdx, fun d inside => ?_⟩
    rw [Route.takes_iff.mp (takes d inside), sent, List.getElem?_eq_getElem inside, Option.map_some]
  rw [target, all, Option.map_some, placeFor, slotsFor]
  congr 2
  apply List.filterMap_congr
  intro d _
  rw [sent, kept]
  cases routes[d]? <;> rfl

/-- A position that is sent somewhere is in a fibre, and it is sent to its place. -/
theorem exists_takes {p j : Nat} (below : p < Layout.volume extents)
    (found : target extents ((Reduction.axes routes order).map Axis.extent) routes order p =
      some j) :
    ∃ t, Within routes t ∧ Takes routes (Layout.tuple extents p) t ∧ placeFor routes order t = j := by
  obtain ⟨sent, all, rfl⟩ := Option.map_eq_some_iff.mp found
  have inside := Layout.inside_tuple below
  have parallel := parallel_of_sendAll arranged.lands inside all
  obtain ⟨length, steps⟩ :=
    (sendAll_eq_some_iff (inside.length_eq.trans arranged.lands.length_eq)).mp all
  refine ⟨fun d => (sent[d]? >>= id).getD 0, fun d new => (parallel d).getD_lt,
    fun d inside => ?_, ?_⟩
  · have there := (parallel d).map_getD
    have found := List.getElem?_eq_getElem (length ▸ inside : d < sent.length)
    rw [List.getElem?_eq_getElem inside] at there
    rw [Route.takes_iff, steps d inside]
    dsimp only
    rw [found] at there ⊢
    exact congrArg some there.symm
  · rw [placeFor, slotsFor]
    congr 1
    apply List.filterMap_congr
    intro d _
    exact (parallel d).map_getD

theorem target_eq_iff {p : Nat} (below : p < Layout.volume extents) (within : Within routes t) :
    target extents ((Reduction.axes routes order).map Axis.extent) routes order p =
      some (placeFor routes order t) ↔ Takes routes (Layout.tuple extents p) t := by
  constructor
  · intro sent
    obtain ⟨u, others, takes, same⟩ := arranged.exists_takes below sent
    have slots := (Layout.position_bijOn _).injOn (inside_slotsFor others order)
      (inside_slotsFor within order) same
    exact takes.congr fun d new stays => eq_of_slotsFor slots (arranged.names d new stays) stays
  · exact arranged.target_of_takes below

theorem sources_eq_fibre {n : Nat} (full : n = Layout.volume extents) (within : Within routes t) :
    Bins.sources (target extents ((Reduction.axes routes order).map Axis.extent) routes order) n
      (placeFor routes order t) = fibre n extents routes t := by
  apply List.filter_congr
  intro p among
  rw [decide_eq_decide]
  exact arranged.target_eq_iff (full ▸ List.mem_range.mp among) within

/-- Every place is that of a choice. -/
theorem exists_placeFor {i : Nat}
    (below : i < Layout.volume ((Reduction.axes routes order).map Axis.extent)) :
    ∃ t, Within routes t ∧ placeFor routes order t = i := by
  have inside := Layout.inside_tuple below
  obtain ⟨t, slots⟩ : ∃ t, slotsFor routes order t = Layout.tuple _ i :=
    exists_slotsFor arranged.once inside.length_eq
  rw [← slots] at inside
  refine ⟨t, fun d new stays => ?_, ?_⟩
  · exact inside_slotsFor_iff.mp inside d (arranged.names d new stays) new stays
  · rw [placeFor, slots, Layout.position_tuple below]

/-- What is taken is below the extents. -/
theorem within_of_takes {slots : List Nat} (inside : Layout.Inside extents slots)
    (takes : Takes routes slots t) : Within routes t := by
  intro d new stays
  obtain ⟨route, listed, axis⟩ := Option.bind_eq_some_iff.mp stays
  obtain ⟨below, rfl⟩ := List.getElem?_eq_some_iff.mp listed
  have other : d < extents.length := arranged.lands.length_eq ▸ below
  have slot : d < slots.length := inside.length_eq ▸ other
  have small : slots.getD d 0 < extents[d] := by
    simpa [slot] using (Layout.inside_iff_forall₂.mp inside).get other slot
  have sent := Route.takes_iff.mp (takes d below)
  rw [axis] at sent
  obtain ⟨_, same, lower⟩ := arranged.lands.get other below _ small _ sent
  exact Option.some.inj (axis.symm.trans same) ▸ lower

theorem turns_fibre {b : Bins} (full : b.length = Layout.volume extents) (p : Nat) :
    b.Turns (Bins.sources (target extents ((Reduction.axes routes order).map Axis.extent) routes
      order) b.length) p ↔ b.Turns (fibre b.length extents routes) p := by
  constructor
  · rintro ⟨i, among, turns⟩
    obtain ⟨below, sent⟩ := Bins.mem_sources.mp among
    obtain ⟨t, within, _, rfl⟩ := arranged.exists_takes (full ▸ below) sent
    rw [arranged.sources_eq_fibre full within] at among turns
    exact ⟨t, among, turns⟩
  · rintro ⟨t, among, turns⟩
    obtain ⟨below, takes⟩ := mem_fibre.mp among
    have within := arranged.within_of_takes (Layout.inside_tuple (full ▸ below)) takes
    rw [← arranged.sources_eq_fibre full within] at among turns
    exact ⟨_, among, turns⟩

end Arranged

/-! ### The gathered cells -/

/-- What a reduction makes of contents: the axes that are kept, in their order, and bins of
the same kind over them. Each place is that of a choice and holds the merge of its fibre.
No position is in the fibres of two places, and the strided pass finds the one it is in. -/
structure Merges (b : Bins) (extents : List Nat) (routes : List Route) (order : List Nat)
    (laid : List Axis) (out : Bins) : Prop where
  axes : laid = order.filterMap (kept routes) ∧ laid.Perm (stay routes)
  kind : out.kind = b.kind
  length : out.length = Layout.volume (laid.map Axis.extent)
  place : ∀ i < out.length, ∃ t, Within routes t ∧
    Layout.position (laid.map Axis.extent) (slotsFor routes order t) = i
  cells : ∃ turn, b.Turning (fibre b.length extents routes) turn ∧ ∀ t, Within routes t →
    out.get (Layout.position (laid.map Axis.extent) (slotsFor routes order t)) =
      b.mergedWith turn (fibre b.length extents routes t)
  apart : b.kind ≠ .unlimited → ∀ t, Within routes t →
    out.get (Layout.position (laid.map Axis.extent) (slotsFor routes order t)) =
      ((fibre b.length extents routes t).map b.get).foldl b.kind.merge b.kind.zero
  once : ∀ p t u, p ∈ fibre b.length extents routes t → p ∈ fibre b.length extents routes u →
    slotsFor routes order t = slotsFor routes order u
  strided : out = b.gather (strides routes order).2
    (walk extents routes (strides routes order).1 routes.length · 0)

/-- A reduction of any contents along any routes merges the fibre of every choice. -/
theorem Arranged.merges_gather (arranged : Arranged extents routes order) {b : Bins}
    (full : b.length = Layout.volume extents) :
    Merges b extents routes order (Reduction.gather b extents routes order).1
      (Reduction.gather b extents routes order).2 := by
  obtain ⟨turn, turning, cells⟩ := Bins.get_gather fun p below j sent =>
    target_lt arranged.lands (full ▸ below) sent
  have turning := turning.congr (arranged.turns_fibre full)
  have place (t : Nat → Nat) (within : Within routes t) :
      placeFor routes order t < Layout.volume ((Reduction.axes routes order).map Axis.extent) :=
    (inside_slotsFor within order).position_lt
  refine ⟨⟨rfl, arranged.perm_axes⟩, Bins.kind_gather .., Bins.length_gather .., fun i below => ?_,
    ⟨turn, turning, fun t within => ?_⟩, fun apart t within => ?_, fun p t u left right => ?_, ?_⟩
  · rw [Reduction.gather, Bins.length_gather] at below
    exact arranged.exists_placeFor below
  · rw [← arranged.sources_eq_fibre full within]
    exact cells _ (place t within)
  · rw [← Bins.merged_eq_merge apart, ← arranged.sources_eq_fibre full within]
    exact Bins.get_gather_of_apart apart (place t within)
  · exact (mem_fibre.mp left).2.slotsFor_eq (mem_fibre.mp right).2 order
  · exact gather_eq_walk b full arranged.lands arranged.once

/-- Sum over the first axis, and keep the second one with its slots in pairs. -/
def pairTotals : List Route :=
  [.fold fun _ => true, .keep (fun s => some (s / 2)) ⟨.integer ⟨0, 2⟩, {}, none⟩]

theorem kept_pairTotals {d : Nat} {new : Axis} (stays : kept pairTotals d = some new) :
    d = 1 ∧ new.extent = 2 := by
  rcases d with _ | _ | d
  · contradiction
  · cases stays
    exact ⟨rfl, rfl⟩
  · contradiction

theorem arranged_pairTotals : Arranged [2, 3] pairTotals [1] := by
  refine ⟨.cons ?_ (.cons ?_ .nil), by decide, ?_⟩
  · intro s _ k sent
    simp [Route.send] at sent
  · intro s below k sent
    refine ⟨_, rfl, ?_⟩
    obtain rfl : s / 2 = k := by simpa [Route.send] using sent
    change s / 2 < 2
    omega
  · intro d new stays
    exact List.mem_singleton.mpr (kept_pairTotals stays).1

theorem merges_gather_pairTotals :
    Merges (.int #[0, 1, 2, 3, 4, 5]) [2, 3] pairTotals [1] [⟨.integer ⟨0, 2⟩, {}, none⟩]
      (.int #[8, 7]) :=
  arranged_pairTotals.merges_gather rfl

/-- Counters that turn: the first cell takes its total beyond a word, and the second is
not the merge of its own fibre any more. -/
theorem not_merged_apart : ¬ ∀ (b : Bins) (extents : List Nat) (routes : List Route)
    (order : List Nat) (t : Nat → Nat), Arranged extents routes order →
      b.length = Layout.volume extents → Within routes t →
      (Reduction.gather b extents routes order).2.get (placeFor routes order t) =
        b.merged (fibre b.length extents routes t) := by
  intro apart
  have within : Within pairTotals fun _ => 1 := by
    intro d new stays
    rw [(kept_pairTotals stays).2]
    exact Nat.lt_succ_self 1
  have same := apart (.unlimited (.counts .sixtyFour #[2 ^ 63, 0, 2 ^ 53 + 1, 2 ^ 63, 0, 1]))
    [2, 3] pairTotals [1] (fun _ => 1) arranged_pairTotals rfl within
  have real := congrArg Cell.isReal same
  revert real
  decide +kernel

end Reduction
end Binning
