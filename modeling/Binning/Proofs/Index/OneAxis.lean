import Binning.Proofs.Index.Full

/-! One axis changes. The entries keep full ranges of all others, so a tuple of indices
goes where the route of that axis takes its index there, and all of its other indices
stay. -/
namespace Binning
open Results

variable {a new : Axis} {axes : List Axis} {d : Nat} {route : Route} {wanted : Index → Prop}

theorem Axis.Addresses.representable {is : List Int} (has : Addresses axes is)
    (at_axis : axes[d]? = some a) {i : Int} (here : is[d]? = some i) :
    a.representable i = true := by
  obtain ⟨below, rfl⟩ := List.getElem?_eq_some_iff.mp at_axis
  obtain ⟨inside, rfl⟩ := List.getElem?_eq_some_iff.mp here
  exact has.get below inside

/-- The route turns the axis into a new one and has a slot of that for each slot that it
keeps. -/
structure Route.Makes (route : Route) (a new : Axis) : Prop where
  stays : route.axis? = some new
  fits : new.Fits
  lands : route.Lands a

theorem Route.makes_regroup {lo hi merge : Nat} (under beyond : Bool) (fits : a.Fits)
    (sliced : a.slice lo hi merge = .ok new) :
    (regroup a new lo hi merge under beyond).Makes a new :=
  ⟨rfl, fits.slice sliced, lands_regroup (fits.slice sliced)⟩

theorem Route.Makes.representable (makes : route.Makes a new) (fits : a.Fits) {i k : Int}
    (has : a.representable i = true) (sent : route.index? a i = some k) :
    new.representable k = true := by
  cases route with
  | fold => contradiction
  | keep target kept =>
    cases makes.stays
    obtain ⟨s, found, rfl⟩ := Option.map_eq_some_iff.mp sent
    obtain ⟨_, same, small⟩ := makes.lands _ (fits.slot_lt has) s (by simp [send, found])
    cases same
    exact makes.fits.representable_indexOfSlot small

/-- A route follows two others where its indices are those that the first leads to and the
second leads on from. -/
theorem Route.Makes.index?_eq_bind {b : Axis} {first second both : Route} (makes : first.Makes a b)
    (fits : a.Fits) {start next whole : Int → Int → Prop}
    (starts : ∀ i j, a.representable i = true → (first.index? a i = some j ↔ start i j))
    (nexts : ∀ j k, b.representable j = true → (second.index? b j = some k ↔ next j k))
    (wholes : ∀ i k, a.representable i = true → (both.index? a i = some k ↔ whole i k))
    (joins : ∀ i k, (∃ j, start i j ∧ next j k) ↔ whole i k) {i : Int}
    (has : a.representable i = true) :
    both.index? a i = (first.index? a i).bind (second.index? b) := by
  refine Option.ext fun k => ?_
  rw [Option.bind_eq_some_iff, wholes i k has, ← joins]
  refine exists_congr fun j => ?_
  rw [← starts i j has]
  refine and_congr_right fun sent => ?_
  rw [nexts j k (makes.representable fits has sent)]

/-- An entry that is wanted stands at one place, and full ranges at all others. -/
inductive Index.OnlyAt (wanted : Index → Prop) : Nat → List Axis → List Index → Prop where
  | here {a : Axis} {axes : List Axis} {entry : Index} {entries : List Index} :
    wanted entry → List.Forall₂ Full axes entries → OnlyAt wanted 0 (a :: axes) (entry :: entries)
  | there {d : Nat} {a : Axis} {axes : List Axis} {entry : Index} {entries : List Index} :
    Full a entry → OnlyAt wanted d axes entries → OnlyAt wanted (d + 1) (a :: axes) (entry :: entries)

/-- The entry at place `d`, with open ranges at all others. -/
def Index.single (rank d : Nat) (entry : Index) : List Index :=
  (List.replicate rank (.slice {})).set d entry

theorem Index.expand_single (rank d : Nat) {entry : Index} (named : entry.isEllipsis = false) :
    expand (single rank d entry) rank = .ok (single rank d entry) := by
  refine expand_of_named (fun other among => ?_) (by simp [single])
  rcases List.mem_or_eq_of_mem_set among with whole | rfl
  · rw [List.eq_of_mem_replicate whole]
    rfl
  · exact named

theorem Index.onlyAt_single {entry : Index} (here : wanted entry) (at_axis : axes[d]? = some a) :
    OnlyAt wanted d axes (single axes.length d entry) := by
  induction axes generalizing d with
  | nil => contradiction
  | cons b axes ih =>
    cases d with
    | zero =>
      refine .here here ?_
      rw [List.forall₂_iff_get]
      refine ⟨List.length_replicate.symm, fun k _ below => ?_⟩
      simp only [List.get_eq_getElem, List.getElem_replicate]
      exact full_open _
    | succ d => exact .there (full_open b) (ih at_axis)

section
variable (sized : ∀ a ∈ axes, 0 < a.size) (fits : ∀ a ∈ axes, a.Fits)
  (starts : ∀ a ∈ axes, a.StartsSigned) (at_axis : axes[d]? = some a)
include sized fits starts at_axis

theorem Index.mapM_route_onlyAt (routed : ∀ entry, wanted entry → entry.route a = .ok route)
    {entries : List Index} (only : OnlyAt wanted d axes entries) :
    ((axes.zip entries).mapM fun (a, entry) => Index.route a entry) =
      .ok ((axes.map .whole).set d route) := by
  rw [mapM_eq_ok]
  induction only with
  | here here full =>
    cases at_axis
    obtain ⟨_, sized⟩ := List.forall_mem_cons.mp sized
    obtain ⟨_, fits⟩ := List.forall_mem_cons.mp fits
    obtain ⟨_, starts⟩ := List.forall_mem_cons.mp starts
    exact .cons (routed _ here) (mapM_eq_ok.mp (mapM_route_full sized fits starts full))
  | there full _ ih =>
    obtain ⟨some_bin, sized⟩ := List.forall_mem_cons.mp sized
    obtain ⟨fit, fits⟩ := List.forall_mem_cons.mp fits
    obtain ⟨start, starts⟩ := List.forall_mem_cons.mp starts
    exact .cons (full.route some_bin fit start) (ih sized fits starts at_axis)

theorem Reduction.goes_set_iff (stays : route.axis? = some new) {is ks : List Int}
    (has : Axis.Addresses axes is) :
    Goes axes ((axes.map .whole).set d route) is ks ↔
      ∃ i k, is[d]? = some i ∧ route.index? a i = some k ∧ ks = is.set d k := by
  induction has generalizing d ks with
  | nil => contradiction
  | @cons b i axes is first has ih =>
    cases d with
    | zero =>
      cases at_axis
      obtain ⟨_, sized⟩ := List.forall_mem_cons.mp sized
      obtain ⟨_, fits⟩ := List.forall_mem_cons.mp fits
      obtain ⟨_, starts⟩ := List.forall_mem_cons.mp starts
      rw [List.map_cons, List.set_cons_zero, goes_keep_iff stays]
      simp only [goes_whole_iff sized fits starts has]
      constructor
      · rintro ⟨k, _, rfl, goes, rfl⟩
        exact ⟨i, k, rfl, goes, rfl⟩
      · rintro ⟨_, k, same, goes, rfl⟩
        cases same
        exact ⟨k, is, rfl, goes, rfl⟩
    | succ d =>
      obtain ⟨some_bin, sized⟩ := List.forall_mem_cons.mp sized
      obtain ⟨fit, fits⟩ := List.forall_mem_cons.mp fits
      obtain ⟨start, starts⟩ := List.forall_mem_cons.mp starts
      have whole := Route.index?_whole some_bin fit start first
      rw [List.map_cons, List.set_cons_succ, goes_keep_iff rfl]
      simp only [whole, Option.some.injEq, ih sized fits starts at_axis]
      constructor
      · rintro ⟨_, _, rfl, rfl, j, k, there, goes, rfl⟩
        exact ⟨j, k, there, goes, rfl⟩
      · rintro ⟨j, k, there, goes, rfl⟩
        exact ⟨i, _, rfl, rfl, j, k, there, goes, rfl⟩

end

theorem Reduction.stay_set (stays : route.axis? = some new) (axes : List Axis) (d : Nat) :
    stay ((axes.map .whole).set d route) = axes.set d new := by
  induction axes generalizing d with
  | nil => rfl
  | cons b axes ih =>
    cases d with
    | zero =>
      rw [List.map_cons, List.set_cons_zero, stay, List.filterMap_cons_some stays]
      exact congrArg (List.cons new) (stay_whole axes)
    | succ d => exact congrArg (List.cons b) (ih d)

theorem Reduction.lands_set (fits : ∀ a ∈ axes, a.Fits) (at_axis : axes[d]? = some a)
    (lands : route.Lands a) :
    List.Forall₂ (fun a r => Route.Lands a r) axes ((axes.map .whole).set d route) := by
  induction axes generalizing d with
  | nil => contradiction
  | cons b axes ih =>
    obtain ⟨fit, others⟩ := List.forall_mem_cons.mp fits
    cases d with
    | zero =>
      cases at_axis
      exact .cons lands (lands_whole others)
    | succ d => exact .cons (Route.lands_regroup fit) (ih others at_axis)

end Binning
