import Binning.Proofs.Reduction
import Binning.Proofs.Storage.Counts

/-! One reduction after another. If on every axis the second route goes on where
the first one ends, the two reductions together send every position where one
reduction along the composed routes sends it. -/
namespace Binning.Reduction

variable {axes : List Axis} {whole first second : List Route} {routes : List Route}

/-- On every axis the first route and then, where the axis stays, the second do
what the whole route does. -/
inductive Composes : List Axis → List Route → List Route → List Route → Prop where
  | nil : Composes [] [] [] []
  /-- The axis folds at once. -/
  | fold {a : Axis} {axes : List Axis} {admits other : Nat → Bool}
      {whole first second : List Route} :
      (∀ s < a.extent, admits s = other s) → Composes axes whole first second →
        Composes (a :: axes) (.fold admits :: whole) (.fold other :: first) second
  /-- The axis stays, and what is left of it folds. -/
  | later {a new : Axis} {axes : List Axis} {admits other : Nat → Bool}
      {target : Nat → Option Nat} {whole first second : List Route} :
      (∀ s < a.extent, admits s = (target s).any other) → Composes axes whole first second →
        Composes (a :: axes) (.fold admits :: whole) (.keep target new :: first)
          (.fold other :: second)
  /-- The axis stays and is left alone after that. -/
  | keep {a new : Axis} {axes : List Axis} {target : Nat → Option Nat}
      {whole first second : List Route} :
      Composes axes whole first second →
        Composes (a :: axes) (.keep target new :: whole) (.keep target new :: first)
          (.identity new :: second)

namespace Composes

theorem lengths (composes : Composes axes whole first second) :
    whole.length = axes.length ∧ first.length = axes.length ∧
      second.length = (stay first).length := by
  induction composes with
  | nil => exact ⟨rfl, rfl, rfl⟩
  | fold _ _ ih => exact ⟨congrArg Nat.succ ih.1, congrArg Nat.succ ih.2.1, ih.2.2⟩
  | later _ _ ih | keep _ ih =>
    exact ⟨congrArg Nat.succ ih.1, congrArg Nat.succ ih.2.1, congrArg Nat.succ ih.2.2⟩

theorem stay_eq (composes : Composes axes whole first second) : stay second = stay whole := by
  induction composes with
  | nil => rfl
  | fold _ _ ih => exact ih
  | later _ _ ih => exact ih
  | keep _ ih => exact congrArg (List.cons _) ih

theorem sendKept_eq (composes : Composes axes whole first second) {slots : List Nat}
    (inside : Layout.Inside (axes.map Axis.extent) slots) :
    sendKept whole slots = sendKept first slots >>= sendKept second := by
  induction composes generalizing slots with
  | nil =>
    cases inside
    rfl
  | fold same _ ih =>
    cases inside with
    | cons below inside =>
      rw [sendKept_fold, sendKept_fold, ih inside, same _ below]
      split <;> rfl
  | @later a new axes admits other target whole first second same _ ih =>
    cases inside with
    | @cons _ s _ slots below inside =>
      rw [sendKept_fold, sendKept_keep, ih inside, same s below]
      cases target s with
      | none => rfl
      | some k =>
        cases sendKept first slots with
        | none => simp
        | some rest => exact (sendKept_fold other k rest).symm
  | @keep a new axes target whole first second _ ih =>
    cases inside with
    | @cons _ s _ slots below inside =>
      rw [sendKept_keep, sendKept_keep, ih inside]
      cases target s with
      | none => rfl
      | some k =>
        cases sendKept first slots with
        | none => rfl
        | some rest => exact (sendKept_keep some new k rest).symm

end Composes

/-- What is kept of a tuple lies inside the axes that stay. -/
theorem inside_sendKept (lands : List.Forall₂ (fun a r => r.Lands a) axes routes)
    {slots sent : List Nat} (inside : Layout.Inside (axes.map Axis.extent) slots)
    (all : sendKept routes slots = some sent) :
    Layout.Inside ((stay routes).map Axis.extent) sent := by
  induction lands generalizing slots sent with
  | nil =>
    cases inside
    cases all
    exact .nil
  | @cons a route axes routes head _ ih =>
    cases inside with
    | @cons _ s _ slots below inside =>
      cases route with
      | fold admits =>
        rw [sendKept_fold] at all
        split at all
        · exact ih inside all
        · contradiction
      | keep target new =>
        rw [sendKept_keep, Option.bind_eq_some_iff] at all
        obtain ⟨k, found, sent⟩ := all
        obtain ⟨rest, kept, rfl⟩ := Option.map_eq_some_iff.mp sent
        obtain ⟨_, same, small⟩ := head s below k (by simp [Route.send, found])
        cases same
        exact .cons small (ih inside kept)

theorem along_eq_sendKept (same : routes.length = axes.length) {p : Nat}
    (below : p < Layout.volume (axes.map Axis.extent)) :
    along axes routes p = (sendKept routes (Layout.tuple (axes.map Axis.extent) p)).map
      (Layout.position ((stay routes).map Axis.extent)) :=
  target_range (Layout.inside_tuple below) ((List.length_map _).trans same.symm)

/-- The second reduction goes on where the first one ends. -/
theorem Composes.along_eq (composes : Composes axes whole first second)
    (lands : List.Forall₂ (fun a r => r.Lands a) axes first) {p : Nat}
    (below : p < Layout.volume (axes.map Axis.extent)) :
    along axes whole p = along axes first p >>= along (stay first) second := by
  obtain ⟨length, length_first, length_second⟩ := composes.lengths
  have inside := Layout.inside_tuple below
  rw [along_eq_sendKept length below, along_eq_sendKept length_first below,
    composes.sendKept_eq inside]
  cases sent : sendKept first (Layout.tuple (axes.map Axis.extent) p) with
  | none => rfl
  | some slots =>
    have between := inside_sendKept lands inside sent
    change (sendKept second slots).map _ = along (stay first) second (Layout.position _ slots)
    rw [along_eq_sendKept length_second between.position_lt, between.tuple_position,
      composes.stay_eq]

/-- It does as well if it takes the indices on from where the first one takes them. -/
theorem along_of_goes (lands : List.Forall₂ (fun a r => r.Lands a) axes whole)
    (lands_first : List.Forall₂ (fun a r => r.Lands a) axes first)
    (lands_second : List.Forall₂ (fun a r => r.Lands a) (stay first) second)
    (fits : ∀ a ∈ axes, a.Fits) (between : ∀ a ∈ stay first, a.Fits)
    (kept : ∀ a ∈ stay whole, a.Fits) (last : stay second = stay whole)
    (goes : ∀ is ks, Axis.Addresses axes is →
      (Goes axes whole is ks ↔ ∃ js, Goes axes first is js ∧ Goes (stay first) second js ks))
    {p : Nat} (below : p < Layout.volume (axes.map Axis.extent)) :
    along axes whole p = along axes first p >>= along (stay first) second := by
  have has : Axis.Addresses axes (Axis.indicesAt axes p) :=
    Axis.addresses_indicesOf fits (Layout.inside_tuple below)
  have onward {js : List Int} (came : Goes axes first (Axis.indicesAt axes p) js) (j : Nat) :
      along (stay first) second (Axis.place (stay first) js) = some j ↔
        ∃ ks, Goes (stay first) second js ks ∧ Axis.place (stay whole) ks = j := by
    have there := came.addresses lands_first fits between has
    rw [along_eq_some_iff lands_second between (last ▸ kept)
      (Axis.place_lt between there), Axis.indicesAt_place between there, last]
  refine Option.ext fun j => ?_
  rw [Option.bind_eq_bind, Option.bind_eq_some_iff, along_eq_some_iff lands fits kept below]
  simp only [along_eq_some_iff lands_first fits between below]
  constructor
  · rintro ⟨ks, went, rfl⟩
    obtain ⟨js, came, went⟩ := (goes _ _ has).mp went
    exact ⟨_, ⟨js, came, rfl⟩, (onward came _).mpr ⟨ks, went, rfl⟩⟩
  · rintro ⟨_, ⟨js, came, rfl⟩, sent⟩
    obtain ⟨ks, went, rfl⟩ := (onward came _).mp sent
    exact ⟨ks, (goes _ _ has).mpr ⟨js, came, went⟩, rfl⟩

/-! ### The axes that stay, listed -/

/-- The places of the axes that stay. -/
def staying (routes : List Route) : List Nat :=
  (List.range routes.length).filter fun d => (routes[d]? >>= Route.axis?).isSome

theorem filterMap_staying {β : Type} {f : Nat → Option β}
    (folded : ∀ d < routes.length, routes[d]? >>= Route.axis? = none → f d = none) :
    (staying routes).filterMap f = (List.range routes.length).filterMap f := by
  rw [staying, List.filterMap_filter]
  apply List.filterMap_congr
  intro d among
  split
  · rfl
  · rename_i none_stays
    exact (folded d (List.mem_range.mp among) (by simpa using none_stays)).symm

theorem axes_staying (routes : List Route) : Reduction.axes routes (staying routes) = stay routes := by
  rw [← axes_range]
  apply filterMap_staying
  intro d _ none_stays
  exact none_stays

theorem target_staying {extents : List Nat} (same : extents.length = routes.length) {p : Nat}
    (inside : Layout.Inside extents (Layout.tuple extents p)) (kept : List Nat) :
    target extents kept routes (staying routes) p =
      target extents kept routes (List.range routes.length) p := by
  apply Option.map_congr
  intro sent all
  congr 1
  apply filterMap_staying
  intro d below none_stays
  obtain ⟨route, listed⟩ : ∃ route, routes[d]? = some route :=
    ⟨_, List.getElem?_eq_getElem below⟩
  have d_below : d < (Layout.tuple extents p).length := by
    rw [inside.length_eq, same]
    exact below
  obtain ⟨o, found, step⟩ := getElem?_sendAll all listed (List.getElem?_eq_getElem d_below)
  rw [listed] at none_stays
  cases route with
  | keep => contradiction
  | fold admits =>
    simp only [Route.send, Option.ite_none_right_eq_some, Option.some.injEq] at step
    rw [found, ← step.2]
    rfl

end Binning.Reduction
