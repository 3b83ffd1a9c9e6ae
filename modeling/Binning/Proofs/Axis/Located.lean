import Binning.Proofs.Axis.Made
import Binning.Proofs.Law.Bounds

/-! Which entries have a slot. The options that an axis may have with its law
leave no gap: what an axis takes by growing, by wrapping around or by its labels
has a slot, and so has everything on an axis with both flow bins. -/
namespace Binning
open Results

/-! ### Options -/

namespace Axis

/-- The axis has bins between edges. -/
def isContinuous (a : Axis) : Bool := a.law matches .regular _ | .edges _

def isRegular (a : Axis) : Bool := a.law matches .regular _

/-- The axis grows by whole numbers. -/
def growsWhole (a : Axis) : Bool := a.options.growth && a.law matches .integer _

/-- The options that an axis has with its law: bins between edges grow with both
flow bins, and only even bins wrap around, with an overflow bin. -/
structure Admitted (a : Axis) : Prop where
  growth : a.options.growth = true → a.isContinuous = true →
    a.options.underflow = true ∧ a.options.overflow = true
  circular : a.options.circular = true → a.isRegular = true ∧ a.options.overflow = true

theorem resolveContinuous_eq_ok {requested options : Options} {mayWrap : Bool}
    (done : Blueprint.resolveContinuous requested mayWrap = .ok options) :
    (options.growth = true → options.underflow = true ∧ options.overflow = true) ∧
      (options.circular = true → mayWrap = true ∧ options.overflow = true) := by
  unfold Blueprint.resolveContinuous at done
  split at done
  · rename_i listed
    cases done
    have sets : ∀ o ∈ Blueprint.continuousSets,
        (o.growth = true → o.underflow = true ∧ o.overflow = true) ∧ o.circular = false := by
      decide
    obtain ⟨growth, circular⟩ := sets _ listed
    exact ⟨growth, fun wraps => absurd wraps (by simp [circular])⟩
  split at done
  · rename_i wraps
    cases done
    exact ⟨fun grows => absurd grows Bool.false_ne_true, fun _ => ⟨wraps.1, rfl⟩⟩
  · cases done

theorem admitted_of_build {b : Blueprint} {requested : Options} {label : Option String} {a : Axis}
    (built : b.build requested label = .ok a) : a.Admitted := by
  cases b with
  | regular bins start stop transform =>
    simp only [Blueprint.build, bind_eq_ok, pure_eq_ok] at built
    obtain ⟨options, resolved, law, _, rfl⟩ := built
    unfold Blueprint.resolveRegular at resolved
    split at resolved
    · obtain ⟨growth, circular⟩ := resolveContinuous_eq_ok resolved
      exact ⟨fun grows _ => growth grows, fun wraps => ⟨rfl, (circular wraps).2⟩⟩
    · rw [ite_throw_eq_ok, pure_eq_ok] at resolved
      obtain ⟨rfl, rfl⟩ := resolved
      exact ⟨fun grows => absurd grows Bool.false_ne_true,
        fun wraps => absurd wraps Bool.false_ne_true⟩
  | edges list =>
    simp only [Blueprint.build, bind_eq_ok, pure_eq_ok] at built
    obtain ⟨law, _, options, resolved, rfl⟩ := built
    obtain ⟨growth, circular⟩ := resolveContinuous_eq_ok resolved
    exact ⟨fun grows _ => growth grows, fun wraps => absurd (circular wraps).1 Bool.false_ne_true⟩
  | integer start stop =>
    simp only [Blueprint.build, bind_eq_ok, pure_eq_ok] at built
    obtain ⟨options, resolved, law, _, rfl⟩ := built
    refine ⟨fun _ bins => absurd bins Bool.false_ne_true, fun wraps => ?_⟩
    rw [Blueprint.resolveInteger, throw_ite_eq_ok, pure_eq_ok] at resolved
    obtain ⟨straight, rfl⟩ := resolved
    split at wraps
    · contradiction
    · exact absurd wraps straight
  | category labels =>
    simp only [Blueprint.build, bind_eq_ok, pure_eq_ok] at built
    obtain ⟨options, resolved, law, _, rfl⟩ := built
    refine ⟨fun _ bins => absurd bins Bool.false_ne_true, fun wraps => ?_⟩
    rw [Blueprint.resolveCategory, throw_ite_eq_ok, pure_eq_ok] at resolved
    obtain ⟨straight, rfl⟩ := resolved
    split at wraps <;> contradiction

variable {a new : Axis}

theorem Admitted.slice (admitted : a.Admitted) {lo hi merge : Nat}
    (cut : a.slice lo hi merge = .ok new) : new.Admitted := by
  obtain ⟨growth, circular⟩ := admitted
  simp only [Axis.slice, guard_eq_ok, bind_eq_ok, pure_eq_ok] at cut
  obtain ⟨_, law, cut, rfl⟩ := cut
  obtain ⟨old, options, label⟩ := a
  unfold sliceLaw at cut
  cases old with
  | regular r =>
    simp only at cut
    split at cut
    · rw [throw_ite_eq_ok, pure_eq_ok] at cut
      obtain ⟨_, rfl⟩ := cut
      exact ⟨growth, circular⟩
    · rename_i straight
      have options : ∀ law, Admitted ⟨law, options, label⟩ :=
        fun law => ⟨fun grows _ => growth grows rfl, fun wraps => absurd wraps straight⟩
      exact options law
  | edges e =>
    cases cut
    exact ⟨growth, circular⟩
  | integer r =>
    rw [throw_ite_eq_ok, pure_eq_ok] at cut
    obtain ⟨_, rfl⟩ := cut
    exact ⟨growth, circular⟩
  | category c =>
    rw [throw_ite_eq_ok, pure_eq_ok] at cut
    obtain ⟨_, rfl⟩ := cut
    exact ⟨growth, circular⟩

/-- Growth changes the bins of a law and nothing else. -/
structure Regrown (a new : Axis) : Prop where
  continuous : new.isContinuous = a.isContinuous
  regular : new.isRegular = a.isRegular
  category : new.isCategory = a.isCategory
  whole : new.growsWhole = a.growsWhole
  options : new.options = a.options

theorem Regrown.refl (a : Axis) : Regrown a a := ⟨rfl, rfl, rfl, rfl, rfl⟩

theorem regrown_of_grow {c : Coord} {index : Int} {front : Nat}
    (grown : a.grow c = .ok (index, front, new)) : Regrown a new := by
  obtain ⟨law, options, label⟩ := a
  cases law with
  | edges e =>
    simp only [Axis.grow, bind_eq_ok, pure_eq_ok] at grown
    obtain ⟨_, _, same⟩ := grown
    cases same
    exact ⟨rfl, rfl, rfl, rfl, rfl⟩
  | regular r | integer r =>
    simp only [Axis.grow, bind_eq_ok, pure_eq_ok] at grown
    obtain ⟨_, _, _, _, same⟩ := grown
    cases same
    exact ⟨rfl, rfl, rfl, rfl, rfl⟩
  | category l =>
    simp only [Axis.grow, bind_eq_ok, pure_eq_ok] at grown
    obtain ⟨_, _, same⟩ := grown
    cases same
    exact ⟨rfl, rfl, rfl, rfl, rfl⟩

theorem regrown_of_locate {c : Coord} {p : Placement} (placed : a.locate c = .ok p)
    (grows : p.grown = some new) : Regrown a new :=
  regrown_of_grow (grow_of_locate placed grows)

theorem Admitted.regrown (admitted : a.Admitted) (same : Regrown a new) : new.Admitted := by
  obtain ⟨continuous, regular, _, _, options⟩ := same
  constructor
  · rw [continuous, options]
    exact admitted.growth
  · rw [regular, options]
    exact admitted.circular

theorem Made.admitted (made : a.Made) : a.Admitted := by
  induction made with
  | built done => exact admitted_of_build done
  | cut _ done admitted => exact admitted.slice done
  | grown _ done grows admitted => exact admitted.regrown (regrown_of_locate done grows)
  | labelled label _ admitted => exact ⟨admitted.growth, admitted.circular⟩

/-! ### Located entries -/

/-- Every coordinate that the axis takes has a slot: the axis grows, wraps around
or has labels, or it has both flow bins. -/
def Complete (a : Axis) : Prop :=
  a.options.growth = true ∨ a.options.circular = true ∨ a.isCategory = true ∨
    a.options.underflow = true ∧ a.options.overflow = true

instance (a : Axis) : Decidable a.Complete := inferInstanceAs (Decidable (_ ∨ _))

theorem Complete.regrown (complete : a.Complete) (same : Regrown a new) : new.Complete := by
  obtain ⟨_, _, category, _, options⟩ := same
  rw [Complete, options, category]
  exact complete

variable {c : Coord}

theorem index_bounds (sized : 0 < a.size) (word : a.size < 2 ^ 63) {i : Int}
    (found : a.index c = .ok i) : -1 ≤ i ∧ i ≤ a.size := by
  obtain ⟨law, options, label⟩ := a
  unfold Axis.index at found
  cases law with
  | regular r =>
    simp only at found
    split at found
    · rw [map_eq_ok] at found
      obtain ⟨x, _, rfl⟩ := found
      have bounds := Grid.indexCircular_bounds sized word (r.transform.forward x)
      exact ⟨Int.le_trans (by decide) bounds.1, bounds.2⟩
    · rw [map_eq_ok] at found
      obtain ⟨x, _, rfl⟩ := found
      exact Grid.index_bounds sized word _
  | edges e =>
    rw [map_eq_ok] at found
    obtain ⟨x, _, rfl⟩ := found
    exact Edges.index_bounds sized x
  | integer r =>
    simp only at found
    split at found
    · cases found
      exact IntegerRange.indexInt_bounds word _
    · rw [map_eq_ok] at found
      obtain ⟨x, _, rfl⟩ := found
      exact IntegerRange.index_bounds sized word x
  | category l =>
    have bounds := Category.index_bounds found
    exact ⟨Int.le_trans (by decide) bounds.1, bounds.2⟩

theorem index_nonneg_of_circular (sized : 0 < a.size) (word : a.size < 2 ^ 63)
    (regular : a.isRegular = true) (circular : a.options.circular = true) {i : Int}
    (found : a.index c = .ok i) : 0 ≤ i := by
  obtain ⟨law, options, label⟩ := a
  cases law with
  | edges | integer | category => contradiction
  | regular r =>
    simp only [Axis.index, if_pos circular, map_eq_ok] at found
    obtain ⟨x, _, rfl⟩ := found
    exact (Grid.indexCircular_bounds sized word _).1

theorem grow_bounds (sized : 0 < a.size) (grows : a.options.growth = true) {index : Int}
    {front : Nat} (grown : a.grow c = .ok (index, front, new)) (word : new.size < 2 ^ 63)
    (small : a.growsWhole = true → Word64.InMemory new.size) :
    -1 ≤ index ∧ index ≤ new.size ∧ (a.isContinuous = false → 0 ≤ index ∧ index < new.size) := by
  obtain ⟨law, options, label⟩ := a
  cases law with
  | regular r =>
    simp only [Axis.grow, bind_eq_ok, pure_eq_ok] at grown
    obtain ⟨x, _, ⟨_, _, law⟩, step, same⟩ := grown
    cases same
    unfold Regular.grow at step
    split at step
    · rename_i reached reach
      cases step
      obtain ⟨low, high⟩ := Grid.reach_bounds sized reach word
      exact ⟨low, high, fun bins => absurd bins Bool.false_ne_true.symm⟩
    · cases step
  | edges e =>
    simp only [Axis.grow, bind_eq_ok, pure_eq_ok] at grown
    obtain ⟨x, _, same⟩ := grown
    cases same
    obtain ⟨low, high⟩ := Edges.grow_bounds (e := e) (x := x) sized rfl
    exact ⟨low, high, fun bins => absurd bins Bool.false_ne_true.symm⟩
  | integer r =>
    simp only [Axis.grow, bind_eq_ok, pure_eq_ok] at grown
    obtain ⟨x, _, ⟨_, _, law⟩, step, same⟩ := grown
    cases same
    have whole : growsWhole ⟨.integer r, options, label⟩ = true :=
      Bool.and_eq_true_iff.mpr ⟨grows, rfl⟩
    obtain ⟨low, high⟩ := IntegerRange.grow_bounds sized step (small whole)
    exact ⟨Int.le_trans (by decide) low, Int.le_of_lt high, fun _ => ⟨low, high⟩⟩
  | category l =>
    simp only [Axis.grow, bind_eq_ok, pure_eq_ok] at grown
    obtain ⟨⟨_, law⟩, step, same⟩ := grown
    cases same
    obtain ⟨low, high⟩ := Category.grow_bounds step
    exact ⟨Int.le_trans (by decide) low, Int.le_of_lt high, fun _ => ⟨low, high⟩⟩

/-- An axis with both flow bins has a slot for all indices from one below the bins to one above. -/
theorem Fits.representable_of_flow (fits : a.Fits) (below : a.options.underflow = true)
    (above : a.options.overflow = true) {i : Int} (low : -1 ≤ i) (high : i ≤ a.size) :
    a.representable i = true := by
  rw [fits.representable_iff_cases]
  simp only [below, above, and_true]
  omega

/-- A coordinate that a complete axis takes has a slot on the axis that it grows
to. Whole numbers are only grown by exactly as far as their number is itself exact. -/
theorem Made.representable_of_locate (made : a.Made) (complete : a.Complete) {p : Placement}
    (placed : a.locate c = .ok p) (fits : (p.grown.getD a).Fits)
    (small : a.growsWhole = true → Word64.InMemory (p.grown.getD a).size) :
    (p.grown.getD a).representable p.index = true := by
  have admitted := made.admitted
  have word := Nat.lt_of_le_of_lt (size_le_extent _) fits
  simp only [locate, bind_eq_ok] at placed
  obtain ⟨i, found, placed⟩ := placed
  split at placed
  · rename_i inside
    cases placed
    simp only [Option.getD_none] at fits ⊢
    rw [InRange, fits.beyond_eq] at inside
    exact fits.representable_of_inRange inside.1 inside.2
  split at placed
  · rename_i growth
    simp only [bind_eq_ok, pure_eq_ok] at placed
    obtain ⟨⟨index, front, grown⟩, step, rfl⟩ := placed
    have options := (regrown_of_grow step).options
    simp only at word small fits ⊢
    obtain ⟨size, flows⟩ : (Option.getD (if grown.size = a.size then none else some grown) a).size =
        grown.size ∧
        (Option.getD (if grown.size = a.size then none else some grown) a).options = a.options := by
      split
      · exact ⟨Eq.symm ‹_›, rfl⟩
      · exact ⟨rfl, options⟩
    generalize Option.getD (if grown.size = a.size then none else some grown) a = target at *
    obtain ⟨low, high, inside⟩ := grow_bounds made.size_pos growth step (size ▸ word) (size ▸ small)
    cases continuous : a.isContinuous with
    | true =>
      obtain ⟨below, above⟩ := admitted.growth growth continuous
      exact fits.representable_of_flow (flows ▸ below) (flows ▸ above) low (by omega)
    | false =>
      obtain ⟨low, high⟩ := inside continuous
      exact fits.representable_of_inRange low (by omega)
  rename_i fixed
  rw [throw_ite_eq_ok, pure_eq_ok] at placed
  obtain ⟨labels, rfl⟩ := placed
  simp only [Option.getD_none] at word fits ⊢
  obtain ⟨low, high⟩ := index_bounds made.size_pos word found
  rcases complete with growth | circular | category | ⟨below, above⟩
  · exact absurd growth fixed
  · obtain ⟨regular, above⟩ := admitted.circular circular
    have low := index_nonneg_of_circular made.size_pos word regular circular found
    rw [fits.representable_iff_cases]
    simp only [above, and_true]
    omega
  · exact absurd category labels
  · exact fits.representable_of_flow below above low high

/-- A larger axis may end right below the entry that it grows for. -/
example : ((⟨.integer ⟨0, 2 ^ 53 + 3⟩, { growth := true }, none⟩ : Axis).locate
    (.int (2 ^ 53 + 4))).toOption.map (fun p => (p.index, p.grown.map size)) =
      some (2 ^ 53 + 4, some (2 ^ 53 + 4)) := by decide +kernel

end Axis

end Binning
