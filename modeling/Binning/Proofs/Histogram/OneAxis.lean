import Binning.Proofs.Histogram.FullSlices
import Binning.Proofs.Index.OneAxis

/-! One axis of a histogram changes and all others are kept whole. What is left has the
new axis in the place of the old one, and two such changes of an axis are a single one
where their routes follow each other. -/
namespace Binning.Histogram
open Results Reduction

variable {r : Registry} {h g : Histogram} {d : Nat} {a b new : Axis}
  {route first second both : Route}

/-- The routes that change the axis at place `d` alone. -/
def changing (h : Histogram) (d : Nat) (route : Route) : List Route := h.wholes.set d route

theorem stay_changing (h : Histogram) (d : Nat) (makes : route.Makes a new) :
    stay (h.changing d route) = h.bareAxes.set d new :=
  stay_set makes.stays h.bareAxes d

theorem getElem?_of_set (at_axis : h.bareAxes[d]? = some a)
    (axes : g.bareAxes = h.bareAxes.set d b) : g.bareAxes[d]? = some b := by
  rw [axes, List.getElem?_set_self (List.getElem?_eq_some_iff.mp at_axis).1]

theorem kind_moved (h : Histogram) (routes : List Route) : (h.moved routes).kind = h.bins.kind :=
  Bins.kind_gather ..

section
variable (sound : h.Sound) (at_axis : h.bareAxes[d]? = some a) (makes : route.Makes a new)
include sound makes

theorem Sound.fits_stay_changing : ∀ b ∈ stay (h.changing d route), b.Fits := by
  intro b among
  rw [stay_changing h d makes] at among
  rcases List.mem_or_eq_of_mem_set among with old | rfl
  · exact sound.fits b old
  · exact makes.fits

include at_axis

theorem Sound.lands_changing :
    List.Forall₂ (fun a r => Route.Lands a r) h.bareAxes (h.changing d route) :=
  lands_set sound.fits at_axis makes.lands

variable (starts : ∀ c ∈ h.bareAxes, c.StartsSigned)
include starts

theorem Sound.goes_changing_iff {is ks : List Int} (has : h.Addresses is) :
    Goes h.bareAxes (h.changing d route) is ks ↔
      ∃ i k, is[d]? = some i ∧ route.index? a i = some k ∧ ks = is.set d k :=
  goes_set_iff sound.sized sound.fits starts at_axis makes.stays has

theorem Sound.index_changing {wanted : Index → Prop} {entries expanded : List Index}
    (expand : Index.expand entries h.rank = .ok expanded)
    (only : Index.OnlyAt wanted d h.bareAxes expanded)
    (routed : ∀ entry, wanted entry → entry.route a = .ok route) :
    h.index r entries = .histogram <$>
      ofParts r (h.bareAxes.set d new) (h.moved (h.changing d route)) h.family := by
  have routes : Index.routes h.bareAxes entries = .ok (h.changing d route) := by
    unfold Index.routes
    rw [length_bareAxes, expand]
    exact Index.mapM_route_onlyAt sound.sized sound.fits starts at_axis routed only
  have length : (h.changing d route).length = h.rank := by
    rw [changing, List.length_set, wholes, List.length_map, length_bareAxes]
  have stays := stay_changing h d makes
  have some_stay : stay (h.changing d route) ≠ [] := by
    rw [stays, ← List.length_pos_iff, List.length_set]
    exact List.length_pos_of_mem (List.mem_of_getElem? at_axis)
  rw [index_eq_bind, routes, ← stays]
  exact reduce_range_of_some length some_stay

end

/-! ### One change after another -/

section
variable (sound : h.Sound) (others : g.Sound) (starts : ∀ c ∈ h.bareAxes, c.StartsSigned)
  (starts_rest : ∀ c ∈ g.bareAxes, c.StartsSigned) (at_axis : h.bareAxes[d]? = some a)
  (makes : first.Makes a b) (makes_rest : second.Makes b new) (makes_both : both.Makes a new)
  (follows : ∀ i, a.representable i = true →
    both.index? a i = (first.index? a i).bind (second.index? b))
  (axes : g.bareAxes = h.bareAxes.set d b)
include sound others starts starts_rest at_axis makes makes_rest makes_both follows axes

/-- The indices go on from where they come by the first change. -/
theorem Sound.goes_changing_changing {is ks : List Int} (has : h.Addresses is) :
    Goes h.bareAxes (h.changing d both) is ks ↔
      ∃ js, Goes h.bareAxes (h.changing d first) is js ∧
        Goes g.bareAxes (g.changing d second) js ks := by
  have at_rest := getElem?_of_set at_axis axes
  have between : stay (h.changing d first) = g.bareAxes := (stay_changing h d makes).trans axes.symm
  have arrives {js : List Int} (came : Goes h.bareAxes (h.changing d first) is js) :
      g.Addresses js := by
    have there := came.addresses (sound.lands_changing at_axis makes) sound.fits
      (sound.fits_stay_changing makes) has
    rwa [between] at there
  rw [sound.goes_changing_iff at_axis makes_both starts has]
  constructor
  · rintro ⟨i, k, here, sent, rfl⟩
    rw [follows i (has.representable at_axis here), Option.bind_eq_some_iff] at sent
    obtain ⟨j, comes, goes⟩ := sent
    have came := (sound.goes_changing_iff at_axis makes starts has).mpr ⟨i, j, here, comes, rfl⟩
    have there : (is.set d j)[d]? = some j :=
      List.getElem?_set_self (List.getElem?_eq_some_iff.mp here).1
    refine ⟨_, came, (others.goes_changing_iff at_rest makes_rest starts_rest (arrives came)).mpr ?_⟩
    exact ⟨j, k, there, goes, (List.set_set ..).symm⟩
  · rintro ⟨js, came, went⟩
    obtain ⟨j, k, there, goes, rfl⟩ :=
      (others.goes_changing_iff at_rest makes_rest starts_rest (arrives came)).mp went
    obtain ⟨i, l, here, comes, rfl⟩ := (sound.goes_changing_iff at_axis makes starts has).mp came
    rw [List.getElem?_set_self (List.getElem?_eq_some_iff.mp here).1, Option.some.injEq] at there
    refine ⟨i, k, here, ?_, List.set_set ..⟩
    rw [follows i (has.representable at_axis here), comes, there]
    exact goes

/-- Moving on along the routes of the second change is moving along those of both. -/
theorem Sound.moved_changing (integral : h.bins.kind.isIntegral = true)
    (bins : g.bins = h.moved (h.changing d first)) :
    g.moved (g.changing d second) = h.moved (h.changing d both) := by
  have at_rest := getElem?_of_set at_axis axes
  have between : stay (h.changing d first) = g.bareAxes := (stay_changing h d makes).trans axes.symm
  have last : stay (g.changing d second) = stay (h.changing d both) := by
    rw [stay_changing g d makes_rest, stay_changing h d makes_both, axes, List.set_set]
  have lands := sound.lands_changing at_axis makes
  refine moved_moved_of_along sound integral lands last (fun p below => ?_) between.symm bins
  refine along_of_goes (sound.lands_changing at_axis makes_both) lands ?_ sound.fits
    (sound.fits_stay_changing makes) (sound.fits_stay_changing makes_both) last
    (fun is ks has => ?_) below
  · rw [between]
    exact others.lands_changing at_rest makes_rest
  · rw [between]
    exact sound.goes_changing_changing others starts starts_rest at_axis makes makes_rest makes_both
      follows axes has

end

end Binning.Histogram
