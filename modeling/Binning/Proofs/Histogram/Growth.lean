import Binning.Histogram.Fill
import Binning.Proofs.Axis.Made
import Binning.Proofs.Routes
import Binning.Proofs.Storage.Gather

/-! Placing an entry and growing for it. Every axis is either left alone or
exchanged for a larger one of which it is a part, so the layout after growth has
room for all that was there before. -/
namespace Binning.Histogram
open Results

/-- What happens to the axes when an entry is placed: each of them is located,
and it stays or is exchanged for the axis that it grows to. -/
inductive Placed (r : Registry) (family : Family) :
    List ClassedAxis → List Axis.Placement → List ClassedAxis → List Route → Prop where
  | nil : Placed r family [] [] [] []
  | cons {a new : ClassedAxis} {c : Coord} {p : Axis.Placement} {route : Route}
      {axes news : List ClassedAxis} {placements : List Axis.Placement} {routes : List Route} :
      a.axis.locate c = .ok p → growAxis r family a p = .ok (new, route) →
        Placed r family axes placements news routes →
        Placed r family (a :: axes) (p :: placements) (new :: news) (route :: routes)

theorem locate_eq_ok {h : Histogram} {coords : List Coord} {placements : List Axis.Placement} :
    h.locate coords = .ok placements ↔ coords.length = h.rank ∧
      List.Forall₂ (fun ac p => ac.1.locate ac.2 = .ok p) (h.bareAxes.zip coords) placements := by
  simp only [locate, guard_eq_ok, mapM_eq_ok, not_not]

variable {r : Registry} {family : Family} {axes news : List ClassedAxis}
  {placements : List Axis.Placement} {routes : List Route}

theorem Placed.length_eq (placed : Placed r family axes placements news routes) :
    placements.length = axes.length ∧ news.length = axes.length ∧
      routes.length = axes.length := by
  induction placed with
  | nil => exact ⟨rfl, rfl, rfl⟩
  | cons _ _ _ ih =>
    obtain ⟨placements, news, routes⟩ := ih
    exact ⟨congrArg Nat.succ placements, congrArg Nat.succ news, congrArg Nat.succ routes⟩

theorem length_of_locate {h : Histogram} {coords : List Coord}
    (located : h.locate coords = .ok placements) : placements.length = h.rank := by
  obtain ⟨same, located⟩ := locate_eq_ok.mp located
  rw [← located.length_eq, List.length_zip, same, bareAxes, List.length_map]
  exact Nat.min_self _

/-- Every placement is that of a coordinate on one of the axes. -/
theorem exists_located {h : Histogram} {coords : List Coord}
    (located : h.locate coords = .ok placements) {p : Axis.Placement} (among : p ∈ placements) :
    ∃ a ∈ h.bareAxes, ∃ c, a.locate c = .ok p := by
  obtain ⟨_, located⟩ := locate_eq_ok.mp located
  obtain ⟨k, below, rfl⟩ := List.getElem_of_mem among
  have pair : k < (h.bareAxes.zip coords).length := located.length_eq ▸ below
  exact ⟨_, (List.of_mem_zip (List.getElem_mem pair)).1, _, located.get pair below⟩

theorem placed_of_located {coords : List Coord} (same : coords.length = axes.length)
    (located : List.Forall₂ (fun ac p => ac.1.locate ac.2 = .ok p)
      ((axes.map ClassedAxis.axis).zip coords) placements)
    (stays : ∀ p ∈ placements, p.grown = none) :
    Placed r family axes placements axes (axes.map fun a => .identity a.axis) := by
  induction axes generalizing coords placements with
  | nil =>
    cases located
    exact .nil
  | cons a axes ih =>
    cases coords with
    | nil => contradiction
    | cons c coords =>
      cases located with
      | cons first located =>
        obtain ⟨head, tail⟩ := List.forall_mem_cons.mp stays
        refine .cons first ?_ (ih (Nat.succ.inj same) located tail)
        simp only [growAxis, head]
        rfl

theorem placed_of_grown {coords : List Coord} {grown : List (ClassedAxis × Route)}
    (same : coords.length = axes.length)
    (located : List.Forall₂ (fun ac p => ac.1.locate ac.2 = .ok p)
      ((axes.map ClassedAxis.axis).zip coords) placements)
    (grows : List.Forall₂ (fun ap g => growAxis r family ap.1 ap.2 = .ok g)
      (axes.zip placements) grown) :
    Placed r family axes placements (grown.map (·.1)) (grown.map (·.2)) := by
  induction axes generalizing coords placements grown with
  | nil =>
    cases located
    cases grows
    exact .nil
  | cons a axes ih =>
    cases coords with
    | nil => contradiction
    | cons c coords =>
      cases located with
      | cons first located =>
        cases grows with
        | cons grow grows => exact .cons first grow (ih (Nat.succ.inj same) located grows)

/-! ### One axis -/

/-- An axis that grows has its old bins behind those put in front. -/
theorem shape_of_growAxis (keeps : r.KeepsShape) {a new : ClassedAxis} {c : Coord}
    {p : Axis.Placement} {route : Route} (made : a.axis.Made) (located : a.axis.locate c = .ok p)
    (grows : growAxis r family a p = .ok (new, route)) :
    new.axis.Made ∧ a.axis.size + p.front ≤ new.axis.size ∧
      new.axis.options = a.axis.options ∧
      ∃ kept, route.axis? = some kept ∧ kept.SameShape new.axis ∧
        (route = .identity a.axis ∧ new = a ∧ p.front = 0 ∨
          route = .regrow a.axis kept p.front ∧ p.grown = some kept) := by
  unfold growAxis at grows
  split at grows
  · rename_i kept grown
    simp only [bind_eq_ok, pure_eq_ok] at grows
    obtain ⟨new, cast, same⟩ := grows
    cases same
    have shape := ClassedAxis.axis_of_cast keeps cast
    obtain ⟨size, options, _⟩ := Axis.size_of_locate made.size_pos located grown
    refine ⟨(made.grown located grown).cast keeps cast, ?_, ?_, kept, rfl, shape, ?_⟩
    · obtain ⟨label, same⟩ := shape
      exact same ▸ size
    · obtain ⟨label, same⟩ := shape
      exact same ▸ options
    · exact .inr ⟨rfl, grown⟩
  · rename_i stays
    cases grows
    have front := Axis.front_of_locate made.size_pos located stays
    refine ⟨made, ?_, rfl, a.axis, rfl, .refl _, .inl ⟨rfl, rfl, front⟩⟩
    rw [front]
    exact Nat.le_refl _

/-! ### All axes -/

section
variable (keeps : r.KeepsShape) (placed : Placed r family axes placements news routes)
  (old : ∀ a ∈ axes, a.axis.Made)
include keeps placed old

theorem Placed.made : ∀ a ∈ news, a.axis.Made := by
  induction placed with
  | nil => exact old
  | cons located grows _ ih =>
    obtain ⟨head, tail⟩ := List.forall_mem_cons.mp old
    exact List.forall_mem_cons.mpr ⟨(shape_of_growAxis keeps head located grows).1, ih tail⟩

theorem Placed.extent_le :
    List.Forall₂ (· ≤ ·) (axes.map fun a => a.axis.extent) (news.map fun a => a.axis.extent) := by
  induction placed with
  | nil => exact .nil
  | cons located grows _ ih =>
    obtain ⟨head, tail⟩ := List.forall_mem_cons.mp old
    obtain ⟨_, size, options, _⟩ := shape_of_growAxis keeps head located grows
    refine .cons ?_ (ih tail)
    simp only [Axis.extent, options]
    omega

/-- The contents are laid out over the axes as they are before they are cast. -/
theorem Placed.sameShape :
    List.Forall₂ Axis.SameShape (Reduction.stay routes) (news.map ClassedAxis.axis) := by
  induction placed with
  | nil => exact .nil
  | @cons _ _ _ _ route _ _ _ routes located grows _ ih =>
    obtain ⟨head, tail⟩ := List.forall_mem_cons.mp old
    obtain ⟨_, _, _, kept, axis, shape, _⟩ := shape_of_growAxis keeps head located grows
    have first : Reduction.stay (route :: routes) = kept :: Reduction.stay routes :=
      List.filterMap_cons_some axis
    rw [first]
    exact .cons shape (ih tail)

theorem Placed.lands (fits : ∀ a ∈ Reduction.stay routes, a.Fits) :
    List.Forall₂ (fun a r => Route.Lands a r) (axes.map ClassedAxis.axis) routes := by
  induction placed with
  | nil => exact .nil
  | @cons _ _ _ _ route _ _ _ routes located grows _ ih =>
    obtain ⟨head, tail⟩ := List.forall_mem_cons.mp old
    obtain ⟨_, _, _, kept, axis, _, kind⟩ := shape_of_growAxis keeps head located grows
    have first : Reduction.stay (route :: routes) = kept :: Reduction.stay routes :=
      List.filterMap_cons_some axis
    obtain ⟨fit, fits⟩ := List.forall_mem_cons.mp (first ▸ fits)
    refine .cons ?_ (ih tail fits)
    rcases kind with ⟨rfl, _⟩ | ⟨rfl, _⟩
    · exact Route.lands_identity
    · exact Route.lands_regrow fit _

end

/-- The bins after a move along the routes of axes that stay in their order. -/
def moved (h : Histogram) (routes : List Route) : Bins :=
  h.bins.gather (Layout.volume ((Reduction.stay routes).map Axis.extent))
    (Reduction.along h.bareAxes routes)

theorem grow_eq_ok {h grown : Histogram} {coords : List Coord}
    (located : h.locate coords = .ok placements) (grows : h.grow r placements = .ok grown) :
    ∃ routes, Placed r h.family h.axes placements grown.axes routes ∧
      grown = { h with axes := grown.axes, bins := h.moved routes } := by
  obtain ⟨same, located⟩ := locate_eq_ok.mp located
  simp only [grow, bind_eq_ok, pure_eq_ok, mapM_eq_ok] at grows
  obtain ⟨pairs, grows, rfl⟩ := grows
  have placed := placed_of_grown same located grows
  obtain ⟨_, _, length⟩ := placed.length_eq
  refine ⟨_, placed, ?_⟩
  simp only [Reduction.gather, rank, ← length, Reduction.axes_range]
  rfl

theorem rank_of_grow {h grown : Histogram} {coords : List Coord}
    (located : h.locate coords = .ok placements) (grows : h.grow r placements = .ok grown) :
    grown.rank = h.rank := by
  obtain ⟨routes, placed, _⟩ := grow_eq_ok located grows
  exact placed.length_eq.2.1

end Binning.Histogram
