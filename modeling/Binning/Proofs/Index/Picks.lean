import Binning.Proofs.Histogram.Reductions

/-! One bin of every axis. An expression that names them by their numbers is accepted
exactly if all of them have a slot, and it reads the one cell at these numbers. -/
namespace Binning
open Results

variable {a : Axis} {axes : List Axis} {i k : Int} {is js ks : List Int}

/-- One entry for each axis, the number of its bin. -/
def Index.ofBins (is : List Int) : List Index := is.map fun i => .pick (.ofBin i)

/-- The routes of single bins: each axis admits one slot and disappears. -/
def Reduction.selects (axes : List Axis) (is : List Int) : List Route :=
  List.zipWith (fun a i => Route.select (a.slot i)) axes is

theorem Loc.resolve_ofBin_eq_ok : (ofBin i).resolve a = .ok k ↔ Word64.Signed i ∧ i = k := by
  change Loc.checked (i + 0) = .ok k ↔ _
  rw [Int.add_zero, checked, ite_throw_eq_ok, pure_eq_ok]

theorem Axis.Fits.signed_of_representable (fits : a.Fits) (has : a.representable i = true) :
    Word64.Signed i := by
  have word := Nat.lt_of_le_of_lt a.size_le_extent fits
  unfold Word64.Signed Word64.minSigned Word64.maxSigned
  rcases fits.representable_iff_cases.mp has with ⟨rfl, _⟩ | ⟨low, high⟩ | ⟨rfl, _⟩ <;> omega

theorem Index.route_pick_eq_ok (fits : a.Fits) {route : Route} :
    Index.route a (.pick (.ofBin i)) = .ok route ↔
      a.representable i = true ∧ .select (a.slot i) = route := by
  simp only [Index.route, bind_eq_ok, Loc.resolve_ofBin_eq_ok, ite_throw_eq_ok, pure_eq_ok]
  constructor
  · rintro ⟨_, ⟨_, rfl⟩, has, same⟩
    exact ⟨has, same⟩
  · rintro ⟨has, same⟩
    exact ⟨i, ⟨fits.signed_of_representable has, rfl⟩, has, same⟩

theorem Index.mapM_route_ofBins_eq_ok (fits : ∀ a ∈ axes, a.Fits) (same : is.length = axes.length)
    {routes : List Route} :
    ((axes.zip (ofBins is)).mapM fun (a, entry) => route a entry) = .ok routes ↔
      Axis.Addresses axes is ∧ Reduction.selects axes is = routes := by
  rw [mapM_eq_ok]
  induction axes generalizing is routes with
  | nil =>
    rw [List.length_eq_zero_iff.mp same, ofBins, List.zip_nil_left, List.forall₂_nil_left_iff]
    exact ⟨fun none => ⟨.nil, none.symm⟩, fun both => both.2.symm⟩
  | cons a axes ih =>
    cases is with
    | nil => contradiction
    | cons i is =>
      obtain ⟨fit, fits⟩ := List.forall_mem_cons.mp fits
      change List.Forall₂ _ ((a, _) :: axes.zip (ofBins is)) routes ↔ _
      rw [List.forall₂_cons_left_iff]
      simp only [ih fits (Nat.succ.inj same), route_pick_eq_ok fit]
      constructor
      · rintro ⟨_, _, ⟨first, rfl⟩, ⟨has, rfl⟩, rfl⟩
        exact ⟨.cons first has, rfl⟩
      · rintro ⟨_ | ⟨first, has⟩, rfl⟩
        exact ⟨_, _, ⟨first, rfl⟩, ⟨has, rfl⟩, rfl⟩

theorem Index.expand_ofBins_eq_ok {rank : Nat} {expanded : List Index} :
    expand (ofBins is) rank = .ok expanded ↔ is.length = rank ∧ ofBins is = expanded := by
  have named : ∀ entry ∈ ofBins is, entry.isEllipsis = false := by
    intro entry among
    obtain ⟨i, _, rfl⟩ := List.mem_map.mp among
    rfl
  have length : (ofBins is).length = is.length := List.length_map ..
  constructor
  · intro done
    have none_stands : (ofBins is).countP isEllipsis = 0 := by
      simpa [List.countP_eq_zero] using named
    obtain ⟨_, _, complete, same⟩ := expand_eq_ok done
    exact ⟨length ▸ complete none_stands, (flatMap_spread named _).symm.trans same.symm⟩
  · rintro ⟨same, rfl⟩
    exact expand_of_named named (length.trans same)

/-- Single bins are routed exactly if all of them have a slot. -/
theorem Index.routes_ofBins_eq_ok (fits : ∀ a ∈ axes, a.Fits) {routes : List Route} :
    Index.routes axes (ofBins is) = .ok routes ↔
      Axis.Addresses axes is ∧ Reduction.selects axes is = routes := by
  simp only [Index.routes, bind_eq_ok, mapError_eq_ok, expand_ofBins_eq_ok]
  constructor
  · rintro ⟨_, ⟨same, rfl⟩, routed⟩
    exact (mapM_route_ofBins_eq_ok fits same).mp routed
  · intro both
    have same : is.length = axes.length := both.1.length_eq.symm
    exact ⟨_, ⟨same, rfl⟩, (mapM_route_ofBins_eq_ok fits same).mpr both⟩

namespace Reduction

theorem stay_selects (axes : List Axis) (is : List Int) : stay (selects axes is) = [] := by
  rw [stay, List.filterMap_eq_nil_iff]
  intro route among
  obtain ⟨d, below, rfl⟩ := List.getElem_of_mem among
  simp only [selects, List.getElem_zipWith]
  rfl

theorem lands_selects (same : is.length = axes.length) :
    List.Forall₂ (fun a r => Route.Lands a r) axes (selects axes is) := by
  rw [List.forall₂_iff_get]
  refine ⟨by simp [selects, same], fun d _ _ => ?_⟩
  simp only [selects, List.get_eq_getElem, List.getElem_zipWith]
  exact Route.lands_fold _

/-- The tuple of these numbers goes to the one cell that is left, and no other does. -/
theorem goes_selects_iff (fits : ∀ a ∈ axes, a.Fits) (has : Axis.Addresses axes is)
    (others : Axis.Addresses axes js) : Goes axes (selects axes is) js [] ↔ js = is := by
  induction has generalizing js with
  | nil =>
    cases others
    exact ⟨fun _ => rfl, fun _ => .nil⟩
  | cons first _ ih =>
    obtain ⟨fit, fits⟩ := List.forall_mem_cons.mp fits
    cases others with
    | cons here others =>
      rw [selects, List.zipWith_cons_cons, goes_fold_iff rfl, Route.send_select_iff fit here first,
        List.cons.injEq]
      exact and_congr_right fun _ => ih fits others

end Reduction
end Binning
