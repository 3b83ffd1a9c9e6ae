import Binning.Proofs.Axis.Slots
import Binning.Proofs.Layout
import Binning.Reduction

/-! Where a reduction sends a position. Each axis sends its own slot; a position
is dropped if one axis drops it, and it lands inside the kept axes if every axis
lands on its own. Kept in their order, the axes take tuples of indices to
tuples of indices. -/
namespace Binning

/-- A slot below the extent that goes to a slot goes to one of the axis that is kept. -/
def Route.LandsWithin (extent : Nat) (r : Route) : Prop :=
  ∀ s < extent, ∀ k, r.send s = some (some k) → ∃ new, r.axis? = some new ∧ k < new.extent

/-- A slot that goes to a slot goes to one of the axis that is kept. -/
def Route.Lands (a : Axis) (r : Route) : Prop :=
  ∀ s < a.extent, ∀ k, r.send s = some (some k) → ∃ new, r.axis? = some new ∧ k < new.extent

/-- The index that an index goes to on an axis that stays. -/
def Route.index? (r : Route) (a : Axis) (i : Int) : Option Int :=
  match r with
  | fold _ => none
  | keep target new => (target (a.slot i)).map new.indexOfSlot

namespace Reduction
variable {routes : List Route} {axes : List Axis}

theorem length_sendAll {slots : List Nat} {sent : List (Option Nat)}
    (same : slots.length = routes.length) (all : sendAll routes slots = some sent) :
    sent.length = routes.length := by
  induction routes generalizing slots sent with
  | nil =>
    cases all
    rfl
  | cons route routes ih =>
    cases slots with
    | nil => contradiction
    | cons s slots =>
      simp only [sendAll, Option.bind_eq_bind, Option.bind_eq_some_iff, Option.pure_def,
        Option.some.injEq] at all
      obtain ⟨_, _, _, rest, rfl⟩ := all
      exact congrArg Nat.succ (ih (Nat.succ.inj same) rest)

theorem getElem?_sendAll {slots : List Nat} {sent : List (Option Nat)} {d s : Nat} {route : Route}
    (all : sendAll routes slots = some sent) (listed : routes[d]? = some route)
    (slot : slots[d]? = some s) : ∃ o, sent[d]? = some o ∧ route.send s = some o := by
  induction routes generalizing slots sent d with
  | nil => contradiction
  | cons first routes ih =>
    cases slots with
    | nil => contradiction
    | cons head slots =>
      simp only [sendAll, Option.bind_eq_bind, Option.bind_eq_some_iff, Option.pure_def,
        Option.some.injEq] at all
      obtain ⟨o, step, others, rest, rfl⟩ := all
      cases d with
      | zero =>
        cases listed
        cases slot
        exact ⟨o, rfl, step⟩
      | succ d =>
        rw [List.getElem?_cons_succ] at listed slot ⊢
        exact ih rest listed slot

/-- An axis is kept where a slot is sent to one, and the slot is below its
extent. -/
def Parallel (a : Option Axis) (s : Option Nat) : Prop :=
  match a, s with
  | none, none => True
  | some a, some s => s < a.extent
  | _, _ => False

theorem Parallel.isSome_eq {a : Option Axis} {s : Option Nat} (parallel : Parallel a s) :
    a.isSome = s.isSome := by
  cases a <;> cases s <;> first | rfl | contradiction

theorem inside_kept {slot : Nat → Option Nat} {order : List Nat}
    (parallel : ∀ d ∈ order, Parallel (routes[d]? >>= Route.axis?) (slot d)) :
    Layout.Inside ((Reduction.axes routes order).map Axis.extent) (order.filterMap slot) := by
  induction order with
  | nil => exact .nil
  | cons d order ih =>
    obtain ⟨head, tail⟩ := List.forall_mem_cons.mp parallel
    unfold Parallel at head
    rw [Reduction.axes, List.filterMap_cons, List.filterMap_cons]
    split at head
    · rename_i no_axis no_slot
      rw [no_axis, no_slot]
      exact ih tail
    · rename_i axis slot
      rw [axis, slot]
      exact .cons head (ih tail)
    · contradiction

theorem parallel_of_send {extent : Nat} {route : Route} (lands : route.LandsWithin extent) {s : Nat}
    (below : s < extent) {o : Option Nat} (sent : route.send s = some o) :
    Parallel route.axis? o := by
  cases route with
  | fold admits =>
    simp only [Route.send] at sent
    split at sent
    · cases sent
      trivial
    · contradiction
  | keep target new =>
    obtain ⟨k, _, rfl⟩ := Option.map_eq_some_iff.mp sent
    obtain ⟨_, same, small⟩ := lands s below k sent
    cases same
    exact small

section
variable {extents : List Nat}
  (lands : List.Forall₂ (fun extent r => Route.LandsWithin extent r) extents routes)
include lands

/-- A tuple that all axes admit has a slot for each axis that is kept and for no
other. -/
theorem parallel_of_sendAll {slots : List Nat} (inside : Layout.Inside extents slots)
    {sent : List (Option Nat)} (all : sendAll routes slots = some sent) (d : Nat) :
    Parallel (routes[d]? >>= Route.axis?) (sent[d]? >>= id) := by
  have length : slots.length = routes.length := inside.length_eq.trans lands.length_eq
  cases listed : routes[d]? with
  | none =>
    have beyond : sent[d]? = none := by
      rw [List.getElem?_eq_none_iff] at listed ⊢
      rwa [length_sendAll length all]
    rw [beyond]
    trivial
  | some route =>
    obtain ⟨d_below, rfl⟩ := List.getElem?_eq_some_iff.mp listed
    have slot := List.getElem?_eq_getElem (length ▸ d_below)
    obtain ⟨o, found, step⟩ := getElem?_sendAll all listed slot
    rw [found]
    have d_extent : d < extents.length := lands.length_eq ▸ d_below
    have small := (Layout.inside_iff_forall₂.mp inside).get d_extent (length ▸ d_below)
    exact parallel_of_send (lands.get d_extent d_below) small step

/-- A position is sent inside the layout of the kept axes. -/
theorem target_lt {order : List Nat} {p j : Nat} (below : p < Layout.volume extents)
    (sent : target extents ((Reduction.axes routes order).map Axis.extent) routes order p =
      some j) :
    j < Layout.volume ((Reduction.axes routes order).map Axis.extent) := by
  obtain ⟨slots, all, rfl⟩ := Option.map_eq_some_iff.mp sent
  apply Layout.Inside.position_lt
  apply inside_kept
  intro d _
  exact parallel_of_sendAll lands (Layout.inside_tuple below) all d

end

theorem landsWithin_extents (lands : List.Forall₂ (fun a r => r.Lands a) axes routes) :
    List.Forall₂ (fun extent r => Route.LandsWithin extent r) (axes.map Axis.extent) routes :=
  List.forall₂_map_left_iff.mpr lands

/-! ### Axes that stay in their order -/

theorem filterMap_range {α β : Type} (f : α → Option β) (xs : List α) :
    ((List.range xs.length).filterMap fun d => xs[d]? >>= f) = xs.filterMap f := by
  have each : xs = (List.range xs.length).filterMap fun d => xs[d]? := by
    induction xs with
    | nil => rfl
    | cons x xs ih =>
      rw [List.length_cons, List.range_succ_eq_map, List.filterMap_cons, List.filterMap_map]
      simpa using ih
  conv_rhs => rw [each]
  rw [List.filterMap_filterMap]
  rfl

def stay (routes : List Route) : List Axis := routes.filterMap Route.axis?

theorem axes_range (routes : List Route) :
    Reduction.axes routes (List.range routes.length) = stay routes :=
  filterMap_range Route.axis? routes

/-- The indices of a position and of the place that it is sent to: an axis that
folds admits its index and leaves none, an axis that is kept has one for one. -/
inductive Goes : List Axis → List Route → List Int → List Int → Prop where
  | nil : Goes [] [] [] []
  | fold {a : Axis} {axes : List Axis} {admits : Nat → Bool} {routes : List Route} {i : Int}
      {is ks : List Int} :
      admits (a.slot i) = true → Goes axes routes is ks →
        Goes (a :: axes) (.fold admits :: routes) (i :: is) ks
  | keep {a new : Axis} {axes : List Axis} {target : Nat → Option Nat} {routes : List Route}
      {i k : Int} {is ks : List Int} :
      (Route.keep target new).index? a i = some k → Goes axes routes is ks →
        Goes (a :: axes) (.keep target new :: routes) (i :: is) (k :: ks)

theorem goes_fold_iff {a : Axis} {route : Route} (folds : route.axis? = none) {i : Int}
    {is ks : List Int} :
    Goes (a :: axes) (route :: routes) (i :: is) ks ↔
      route.send (a.slot i) = some none ∧ Goes axes routes is ks := by
  cases route with
  | keep => contradiction
  | fold admits =>
    simp only [Route.send, Option.ite_none_right_eq_some, and_true]
    constructor
    · rintro (_ | ⟨admitted, goes⟩)
      exact ⟨admitted, goes⟩
    · rintro ⟨admitted, goes⟩
      exact .fold admitted goes

theorem goes_keep_iff {a new : Axis} {route : Route} (stays : route.axis? = some new) {i : Int}
    {is ks : List Int} :
    Goes (a :: axes) (route :: routes) (i :: is) ks ↔
      ∃ k rest, ks = k :: rest ∧ route.index? a i = some k ∧ Goes axes routes is rest := by
  cases route with
  | fold => contradiction
  | keep target =>
    constructor
    · rintro (_ | _ | ⟨sent, goes⟩)
      exact ⟨_, _, rfl, sent, goes⟩
    · rintro ⟨k, rest, rfl, sent, goes⟩
      exact .keep sent goes

theorem goes_keep_cons_iff {a new : Axis} {route : Route} (stays : route.axis? = some new)
    {i k : Int} {is ks : List Int} :
    Goes (a :: axes) (route :: routes) (i :: is) (k :: ks) ↔
      route.index? a i = some k ∧ Goes axes routes is ks := by
  rw [goes_keep_iff stays]
  constructor
  · rintro ⟨_, _, same, sent, goes⟩
    cases same
    exact ⟨sent, goes⟩
  · rintro ⟨sent, goes⟩
    exact ⟨_, _, rfl, sent, goes⟩

theorem not_goes_keep_nil {a new : Axis} {route : Route} (stays : route.axis? = some new) {i : Int}
    {is : List Int} : ¬ Goes (a :: axes) (route :: routes) (i :: is) [] := by
  rw [goes_keep_iff stays]
  rintro ⟨_, _, ⟨⟩, _⟩

theorem Goes.addresses {is ks : List Int} (goes : Goes axes routes is ks)
    (lands : List.Forall₂ (fun a r => r.Lands a) axes routes) (fits : ∀ a ∈ axes, a.Fits)
    (kept : ∀ a ∈ stay routes, a.Fits) (has : Axis.Addresses axes is) :
    Axis.Addresses (stay routes) ks := by
  induction goes with
  | nil => exact .nil
  | fold _ _ ih =>
    obtain ⟨_, lands⟩ := List.forall₂_cons.mp lands
    obtain ⟨_, has⟩ := List.forall₂_cons.mp has
    exact ih lands (List.forall_mem_cons.mp fits).2 kept has
  | keep sent _ ih =>
    obtain ⟨first, lands⟩ := List.forall₂_cons.mp lands
    obtain ⟨head, has⟩ := List.forall₂_cons.mp has
    obtain ⟨fit, fits⟩ := List.forall_mem_cons.mp fits
    obtain ⟨new_fit, kept⟩ := List.forall_mem_cons.mp kept
    obtain ⟨s, found, rfl⟩ := Option.map_eq_some_iff.mp sent
    obtain ⟨_, same, small⟩ := first _ (fit.slot_lt head) s (by simp [Route.send, found])
    cases same
    exact .cons (new_fit.representable_indexOfSlot small) (ih lands fits kept has)

def sendKept (routes : List Route) (slots : List Nat) : Option (List Nat) :=
  (sendAll routes slots).map (List.filterMap id)

theorem sendKept_fold (admits : Nat → Bool) (s : Nat) (slots : List Nat) :
    sendKept (.fold admits :: routes) (s :: slots) =
      if admits s then sendKept routes slots else none := by
  unfold sendKept
  by_cases here : admits s <;> cases rest : sendAll routes slots <;>
    simp [sendAll, Route.send, here, rest]

theorem sendKept_keep (target : Nat → Option Nat) (new : Axis) (s : Nat) (slots : List Nat) :
    sendKept (.keep target new :: routes) (s :: slots) =
      (target s).bind fun k => (sendKept routes slots).map (k :: ·) := by
  unfold sendKept
  cases here : target s <;> cases rest : sendAll routes slots <;>
    simp [sendAll, Route.send, here, rest]

theorem sendKept_eq_some_iff {is : List Int}
    (lands : List.Forall₂ (fun a r => r.Lands a) axes routes) (fits : ∀ a ∈ axes, a.Fits)
    (kept : ∀ a ∈ stay routes, a.Fits) (has : Axis.Addresses axes is) (slots : List Nat) :
    sendKept routes (Axis.slotsOf axes is) = some slots ↔
      ∃ ks, Goes axes routes is ks ∧ Axis.slotsOf (stay routes) ks = slots := by
  induction lands generalizing is slots with
  | nil =>
    cases has
    constructor
    · rintro ⟨⟩
      exact ⟨[], .nil, rfl⟩
    · rintro ⟨_, ⟨⟩, rfl⟩
      rfl
  | @cons a route axes routes first lands ih =>
    cases has with
    | @cons _ i _ is head has =>
    obtain ⟨fit, fits⟩ := List.forall_mem_cons.mp fits
    change sendKept (route :: routes) (a.slot i :: Axis.slotsOf axes is) = some slots ↔ _
    cases route with
    | fold admits =>
      rw [sendKept_fold]
      constructor
      · intro sent
        split at sent
        · rename_i admitted
          obtain ⟨ks, goes, same⟩ := (ih fits kept has _).mp sent
          exact ⟨ks, .fold admitted goes, same⟩
        · contradiction
      · rintro ⟨ks, goes, same⟩
        cases goes with
        | fold admitted goes =>
          rw [if_pos admitted]
          exact (ih fits kept has _).mpr ⟨ks, goes, same⟩
    | keep target new =>
      obtain ⟨new_fit, kept⟩ := List.forall_mem_cons.mp kept
      rw [sendKept_keep, Option.bind_eq_some_iff]
      constructor
      · rintro ⟨s, found, sent⟩
        obtain ⟨others, rest, rfl⟩ := Option.map_eq_some_iff.mp sent
        obtain ⟨ks, goes, same⟩ := (ih fits kept has _).mp rest
        obtain ⟨_, listed, small⟩ := first _ (fit.slot_lt head) s (by simp [Route.send, found])
        cases listed
        refine ⟨new.indexOfSlot s :: ks, .keep (congrArg (Option.map _) found) goes, ?_⟩
        exact congrArg₂ List.cons (new_fit.slot_indexOfSlot small) same
      · rintro ⟨ks, goes, same⟩
        cases goes with
        | keep sent goes =>
          obtain ⟨s, found, rfl⟩ := Option.map_eq_some_iff.mp sent
          obtain ⟨_, listed, small⟩ := first _ (fit.slot_lt head) s (by simp [Route.send, found])
          cases listed
          have rest := (ih fits kept has _).mpr ⟨_, goes, rfl⟩
          refine ⟨s, found, Option.map_eq_some_iff.mpr ⟨_, rest, ?_⟩⟩
          rw [← same]
          exact congrArg₂ List.cons (new_fit.slot_indexOfSlot small).symm rfl

theorem target_range {p : Nat} {extents kept : List Nat}
    (inside : Layout.Inside extents (Layout.tuple extents p))
    (same : extents.length = routes.length) :
    target extents kept routes (List.range routes.length) p =
      (sendKept routes (Layout.tuple extents p)).map (Layout.position kept) := by
  rw [target, sendKept, Option.map_map]
  apply Option.map_congr
  intro sent all
  rw [← length_sendAll (inside.length_eq.trans same) all, filterMap_range]
  rfl

def along (axes : List Axis) (routes : List Route) : Nat → Option Nat :=
  target (axes.map Axis.extent) ((stay routes).map Axis.extent) routes (List.range routes.length)

theorem along_lt (lands : List.Forall₂ (fun a r => r.Lands a) axes routes) {p j : Nat}
    (below : p < Layout.volume (axes.map Axis.extent)) (sent : along axes routes p = some j) :
    j < Layout.volume ((stay routes).map Axis.extent) := by
  unfold along at sent
  rw [← axes_range] at sent ⊢
  exact target_lt (landsWithin_extents lands) below sent

section Range
variable (lands : List.Forall₂ (fun a r => r.Lands a) axes routes) (fits : ∀ a ∈ axes, a.Fits)
  (kept : ∀ a ∈ stay routes, a.Fits)
include lands fits kept

/-- A position is sent to the place of the indices that its own indices go to. -/
theorem along_eq_some_iff {p j : Nat} (below : p < Layout.volume (axes.map Axis.extent)) :
    along axes routes p = some j ↔
      ∃ ks, Goes axes routes (Axis.indicesAt axes p) ks ∧ Axis.place (stay routes) ks = j := by
  have inside := Layout.inside_tuple below
  have has := Axis.addresses_indicesOf fits inside
  have sends := sendKept_eq_some_iff lands fits kept has
  rw [Axis.slotsOf_indicesOf fits inside] at sends
  rw [along, target_range inside ((List.length_map _).trans lands.length_eq), Option.map_eq_some_iff]
  constructor
  · rintro ⟨slots, sent, rfl⟩
    obtain ⟨ks, goes, rfl⟩ := (sends slots).mp sent
    exact ⟨ks, goes, rfl⟩
  · rintro ⟨ks, goes, rfl⟩
    exact ⟨_, (sends _).mpr ⟨ks, goes, rfl⟩, rfl⟩

/-- The positions that are sent to the place of a tuple are those whose indices
go to it. -/
theorem along_eq_place_iff {p : Nat} (below : p < Layout.volume (axes.map Axis.extent))
    {ks : List Int} (has : Axis.Addresses (stay routes) ks) :
    along axes routes p = some (Axis.place (stay routes) ks) ↔
      Goes axes routes (Axis.indicesAt axes p) ks := by
  rw [along_eq_some_iff lands fits kept below]
  constructor
  · rintro ⟨others, goes, same⟩
    have other_has := goes.addresses lands fits kept
      (Axis.addresses_indicesOf fits (Layout.inside_tuple below))
    have slots := (Layout.position_bijOn _).injOn (Axis.inside_slotsOf kept other_has)
      (Axis.inside_slotsOf kept has) same
    rw [← Axis.indicesOf_slotsOf kept has, ← slots, Axis.indicesOf_slotsOf kept other_has]
    exact goes
  · intro goes
    exact ⟨ks, goes, rfl⟩

end Range

end Reduction
end Binning
