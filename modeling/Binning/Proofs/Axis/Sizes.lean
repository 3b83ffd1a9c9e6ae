import Binning.Axis.Blueprint
import Binning.Axis.Lookup
import Binning.Axis.Slice
import Binning.Proofs.Results
import Mathlib.Algebra.Order.Floor.Div

/-! How many bins an axis has: at least one when it is built, its old ones and
those put in front after it has grown, and one for each group of the range, the
last of which may be short, after it is cut. -/
namespace Binning
open Results

theorem Regular.size_of_new {bins : Nat} {start stop : Float} {transform : Transform}
    {law : Regular} (made : Regular.new bins start stop transform = .ok law) : 0 < law.size := by
  simp only [Regular.new, guard_eq_ok] at made
  obtain ⟨some_bins, made⟩ := made
  have size : law.size = bins := by
    cases transform with
    | id | log | sqrt =>
      simp only [guard_eq_ok, pure_eq_ok] at made
      exact made.2.2 ▸ rfl
    | pow p =>
      simp only [guard_eq_ok, pure_eq_ok] at made
      exact made.2.2.2 ▸ rfl
  omega

theorem Edges.list_of_new {edges : List Float} {law : Edges} (made : Edges.new edges = .ok law) :
    law.list = edges ∧ 2 ≤ edges.length := by
  simp only [Edges.new, guard_eq_ok, pure_eq_ok] at made
  obtain ⟨long, _, _, rfl⟩ := made
  exact ⟨rfl, Nat.le_of_not_lt long⟩

theorem IntegerRange.size_of_new {start stop : Int} {law : IntegerRange}
    (made : IntegerRange.new start stop = .ok law) : 0 < law.size := by
  simp only [IntegerRange.new, guard_eq_ok, pure_eq_ok] at made
  obtain ⟨ordered, _, rfl⟩ := made
  simp only
  omega

theorem Category.length_of_allInts {labels : List Coord} {is : List Int}
    (all : allInts? labels = some is) : is.length = labels.length :=
  (mapM_eq_some.mp all).length_eq.symm

theorem Category.length_of_allTexts {labels : List Coord} {ss : List String}
    (all : allTexts? labels = some ss) : ss.length = labels.length :=
  (mapM_eq_some.mp all).length_eq.symm

theorem Category.size_of_new {labels : List Coord} {law : Category}
    (made : Category.new labels = .ok law) : 0 < law.size := by
  simp only [Category.new, guard_eq_ok] at made
  obtain ⟨some_label, made⟩ := made
  have long : 0 < labels.length := by
    cases labels with
    | nil => exact absurd rfl some_label
    | cons => exact Nat.succ_pos _
  split at made
  · rename_i all
    rw [ite_throw_eq_ok, pure_eq_ok] at made
    obtain ⟨_, rfl⟩ := made
    rw [size, length_of_allInts all]
    exact long
  · rename_i all
    rw [ite_throw_eq_ok, pure_eq_ok] at made
    obtain ⟨_, rfl⟩ := made
    rw [size, length_of_allTexts all]
    exact long
  · simp only [throw_eq_ok] at made

theorem Axis.size_of_build {b : Blueprint} {requested : Options} {label : Option String}
    {a : Axis} (built : b.build requested label = .ok a) : 0 < a.size := by
  cases b with
  | regular bins start stop transform =>
    simp only [Blueprint.build, bind_eq_ok, pure_eq_ok] at built
    obtain ⟨options, _, law, made, rfl⟩ := built
    exact Regular.size_of_new made
  | edges list =>
    simp only [Blueprint.build, bind_eq_ok, pure_eq_ok] at built
    obtain ⟨law, made, options, _, rfl⟩ := built
    obtain ⟨same, long⟩ := Edges.list_of_new made
    simp only [size, Edges.size, same]
    omega
  | integer start stop =>
    simp only [Blueprint.build, bind_eq_ok, pure_eq_ok] at built
    obtain ⟨options, _, law, made, rfl⟩ := built
    exact IntegerRange.size_of_new made
  | category labels =>
    simp only [Blueprint.build, bind_eq_ok, pure_eq_ok] at built
    obtain ⟨options, _, law, made, rfl⟩ := built
    exact Category.size_of_new made

/-! ### Growth -/

theorem Regular.size_of_grow {r law : Regular} {x : Float} {index : Int} {front : Nat}
    (grown : r.grow x = .ok (index, front, law)) : r.size + front ≤ law.size := by
  unfold Regular.grow at grown
  split at grown
  · rename_i reached reach
    cases grown
    simp only [size]
    unfold Grid.reach at reach
    simp only at reach
    split at reach
    · split at reach
      · cases reach
        exact Nat.le_refl _
      · split at reach
        · simp only [bind_eq_ok, pure_eq_ok] at reach
          obtain ⟨added, _, rfl⟩ := reach
          exact Nat.le_refl _
        · cases reach
          exact Nat.le_refl _
    · split at reach
      · simp only [bind_eq_ok, pure_eq_ok] at reach
        obtain ⟨added, _, rfl⟩ := reach
        exact Nat.le_add_right ..
      · cases reach
        exact Nat.le_refl _
  · cases grown

theorem Edges.size_of_grow {e law : Edges} {x : Float} {index : Int} {front : Nat}
    (sized : 0 < e.size) (grown : e.grow x = (index, front, law)) : e.size + front ≤ law.size := by
  unfold Edges.size at *
  unfold Edges.grow at grown
  simp only at grown
  split at grown
  · cases grown
    exact Nat.le_refl _
  · split at grown
    · cases grown
      simp only [List.length_cons]
      omega
    · split at grown
      · cases grown
        exact Nat.le_refl _
      · cases grown
        simp only [List.length_append]
        omega

/-- What growth to reach `x` makes of a range, with all that is checked on the way. -/
inductive IntegerRange.GrowsTo (r : IntegerRange) (x : Float) : Int → Nat → IntegerRange → Prop
  | front {added : Nat} : Binary64.floor x - Binary64.ofInt r.start < 0 →
    addedBins (-(Binary64.floor x - Binary64.ofInt r.start)) = .ok added →
    Word64.Signed (r.start - added) → GrowsTo r x 0 added ⟨r.start - added, r.size + added⟩
  | behind {added : Nat} : ¬ Binary64.floor x - Binary64.ofInt r.start < 0 →
    Binary64.ofNat r.size ≤ Binary64.floor x - Binary64.ofInt r.start →
    addedBins (Binary64.floor x - Binary64.ofInt r.start - Binary64.ofNat r.size + 1) =
      .ok added →
    Word64.Signed (r.start + Word64.signed (r.size + added)) →
    GrowsTo r x (Binary64.toSigned (Binary64.floor x - Binary64.ofInt r.start)) 0
      ⟨r.start, r.size + added⟩
  | within : ¬ Binary64.floor x - Binary64.ofInt r.start < 0 →
    ¬ Binary64.ofNat r.size ≤ Binary64.floor x - Binary64.ofInt r.start →
    GrowsTo r x (Binary64.toSigned (Binary64.floor x - Binary64.ofInt r.start)) 0 r

theorem IntegerRange.growsTo_of_grow {r law : IntegerRange} {x : Float} {index : Int} {front : Nat}
    (grown : r.grow x = .ok (index, front, law)) : r.GrowsTo x index front law := by
  simp only [IntegerRange.grow, guard_eq_ok] at grown
  obtain ⟨_, grown⟩ := grown
  split at grown
  · rename_i below
    simp only [bind_eq_ok, guard_eq_ok, pure_eq_ok, mapError_eq_ok, not_not] at grown
    obtain ⟨added, counted, signed, same⟩ := grown
    cases same
    exact .front below counted signed
  rename_i nonneg
  split at grown
  · rename_i beyond
    simp only [bind_eq_ok, guard_eq_ok, pure_eq_ok, mapError_eq_ok, not_not] at grown
    obtain ⟨added, counted, signed, same⟩ := grown
    cases same
    exact .behind nonneg beyond counted signed
  · rename_i short
    cases grown
    exact .within nonneg short

theorem IntegerRange.size_of_grow {r law : IntegerRange} {x : Float} {index : Int} {front : Nat}
    (grown : r.grow x = .ok (index, front, law)) : r.size + front ≤ law.size := by
  cases growsTo_of_grow grown with
  | front => exact Nat.le_refl _
  | behind => exact Nat.le_add_right ..
  | within => exact Nat.le_refl _

theorem Category.size_le_append (c : Category) (label : Coord) : c.size ≤ (c.append label).size := by
  unfold append
  split <;> simp only [size, List.length_append] <;> omega

theorem Category.size_of_grow {c law : Category} {label : Coord} {index : Int}
    (grown : c.grow label = .ok (index, law)) : c.size ≤ law.size := by
  simp only [Category.grow, bind_eq_ok, pure_eq_ok] at grown
  obtain ⟨i, _, same⟩ := grown
  cases same
  split
  · exact Nat.le_refl _
  · exact c.size_le_append label

/-- Growth keeps the old bins behind those it puts in front, and it changes
nothing but the law. -/
theorem Axis.size_of_grow {a new : Axis} {c : Coord} {index : Int} {front : Nat}
    (sized : 0 < a.size) (grown : a.grow c = .ok (index, front, new)) :
    a.size + front ≤ new.size ∧ new.options = a.options ∧ new.label = a.label := by
  obtain ⟨law, options, label⟩ := a
  cases law with
  | regular r =>
    simp only [Axis.grow, bind_eq_ok, pure_eq_ok] at grown
    obtain ⟨x, _, reached, step, same⟩ := grown
    cases same
    exact ⟨Regular.size_of_grow step, rfl, rfl⟩
  | edges e =>
    simp only [Axis.grow, bind_eq_ok, pure_eq_ok] at grown
    obtain ⟨x, _, same⟩ := grown
    cases same
    exact ⟨Edges.size_of_grow sized rfl, rfl, rfl⟩
  | integer r =>
    simp only [Axis.grow, bind_eq_ok, pure_eq_ok] at grown
    obtain ⟨x, _, reached, step, same⟩ := grown
    cases same
    exact ⟨IntegerRange.size_of_grow step, rfl, rfl⟩
  | category l =>
    simp only [Axis.grow, bind_eq_ok, pure_eq_ok] at grown
    obtain ⟨reached, step, same⟩ := grown
    cases same
    exact ⟨Category.size_of_grow step, rfl, rfl⟩

/-- An axis that stays has no bins put in front. -/
theorem Axis.front_of_locate {a : Axis} {c : Coord} {p : Placement} (sized : 0 < a.size)
    (placed : a.locate c = .ok p) (stays : p.grown = none) : p.front = 0 := by
  simp only [locate, bind_eq_ok] at placed
  obtain ⟨i, _, placed⟩ := placed
  split at placed
  · cases placed
    rfl
  split at placed
  · simp only [bind_eq_ok, pure_eq_ok] at placed
    obtain ⟨⟨index, front, new⟩, grown, rfl⟩ := placed
    obtain ⟨size, _, _⟩ := size_of_grow sized grown
    simp only at stays ⊢
    split at stays
    · omega
    · contradiction
  split at placed
  · cases placed
  · cases placed
    rfl

theorem Axis.growth_of_locate {a new : Axis} {c : Coord} {p : Placement}
    (placed : a.locate c = .ok p) (grows : p.grown = some new) : a.options.growth = true := by
  simp only [locate, bind_eq_ok] at placed
  obtain ⟨_, _, placed⟩ := placed
  split at placed
  · cases placed
    contradiction
  split at placed
  · assumption
  split at placed
  · cases placed
  · cases placed
    contradiction

theorem Axis.grow_of_locate {a new : Axis} {c : Coord} {p : Placement}
    (placed : a.locate c = .ok p) (grows : p.grown = some new) :
    a.grow c = .ok (p.index, p.front, new) := by
  simp only [locate, bind_eq_ok] at placed
  obtain ⟨i, _, placed⟩ := placed
  split at placed
  · cases placed
    contradiction
  split at placed
  · simp only [bind_eq_ok, pure_eq_ok] at placed
    obtain ⟨⟨index, front, grown⟩, step, rfl⟩ := placed
    simp only at grows
    split at grows
    · contradiction
    · cases grows
      exact step
  split at placed
  · cases placed
  · cases placed
    contradiction

theorem Axis.size_of_locate {a new : Axis} {c : Coord} {p : Placement} (sized : 0 < a.size)
    (placed : a.locate c = .ok p) (grows : p.grown = some new) :
    a.size + p.front ≤ new.size ∧ new.options = a.options ∧ new.label = a.label :=
  size_of_grow sized (grow_of_locate placed grows)

/-! ### Ranges -/

theorem ceilDiv_eq_div_add {n d : Nat} (positive : 0 < d) :
    n ⌈/⌉ d = n / d + if n % d = 0 then 0 else 1 := by
  have whole := Nat.div_add_mod n d
  have small := Nat.mod_lt n positive
  rw [Nat.ceilDiv_eq_add_pred_div]
  split
  · rw [Nat.add_zero]
    apply Nat.div_eq_of_lt_le <;> rw [Nat.mul_comm] <;> (try rw [Nat.mul_succ]) <;> omega
  · apply Nat.div_eq_of_lt_le <;> rw [Nat.mul_comm] <;> simp only [Nat.mul_succ] <;> omega

theorem lt_ceilDiv_iff {n d k : Nat} (positive : 0 < d) : k < n ⌈/⌉ d ↔ k * d < n := by
  rw [← not_le, ceilDiv_le_iff_le_mul positive, Nat.mul_comm, not_le]

theorem ceilDiv_le_self {n d : Nat} (positive : 0 < d) : n ⌈/⌉ d ≤ n :=
  (ceilDiv_le_iff_le_mul positive).mpr (Nat.le_mul_of_pos_left n positive)

theorem Edges.length_stops {lo hi merge : Nat} (positive : 0 < merge) :
    (stops lo hi merge).length = (hi - lo) ⌈/⌉ merge + 1 := by
  rw [ceilDiv_eq_div_add positive, stops, List.length_append, List.length_map, List.length_range]
  split <;> rfl

/-- Each stop is a whole number of groups above the first, or the end. -/
theorem Edges.getElem?_stops {lo hi merge k : Nat} (positive : 0 < merge) (ordered : lo ≤ hi)
    (below : k ≤ (hi - lo) ⌈/⌉ merge) :
    (stops lo hi merge)[k]? = some (min (lo + k * merge) hi) := by
  have whole := Nat.div_add_mod (hi - lo) merge
  have small := Nat.mod_lt (hi - lo) positive
  rw [ceilDiv_eq_div_add positive] at below
  unfold stops
  rcases Nat.lt_or_ge k ((hi - lo) / merge + 1) with step | last
  · have reach : k * merge ≤ merge * ((hi - lo) / merge) := by
      rw [Nat.mul_comm]
      exact Nat.mul_le_mul_left merge (Nat.le_of_lt_succ step)
    rw [List.getElem?_append_left (by simpa using step), List.getElem?_map,
      List.getElem?_range step]
    simp only [Option.map_some, Option.some.injEq]
    omega
  · rw [List.getElem?_append_right (by simpa using last)]
    split at below
    · omega
    · have same : k = (hi - lo) / merge + 1 := by omega
      have beyond : hi ≤ lo + k * merge := by
        rw [same, Nat.mul_comm, Nat.mul_succ]
        omega
      simp [same ▸ beyond, *]

theorem Edges.size_slice {e : Edges} {lo hi merge : Nat} (positive : 0 < merge) :
    (e.slice lo hi merge).size = (hi - lo) ⌈/⌉ merge := by
  rw [size, slice, List.length_map, length_stops positive, Nat.add_sub_cancel]

theorem Regular.size_slice {r : Regular} {lo hi merge : Nat} (positive : 0 < merge)
    (divides : (hi - lo) % merge = 0) : (r.slice lo hi merge).size = (hi - lo) ⌈/⌉ merge := by
  rw [ceilDiv_eq_div_add positive, if_pos divides, Nat.add_zero, size, slice, Grid.slice]
  split
  · rename_i whole
    simp [whole]
  · rfl

theorem Category.size_slice {c : Category} {lo hi : Nat} (inside : hi ≤ c.size) :
    (c.slice lo hi).size = hi - lo := by
  cases c <;> simp only [slice, size, List.length_drop, List.length_take] at inside ⊢ <;> omega

theorem Axis.size_of_sliceUneven {r : Regular} {lo hi merge : Nat} {law : Edges}
    (positive : 0 < merge) (cut : sliceUneven r lo hi merge = .ok law) :
    law.size = (hi - lo) ⌈/⌉ merge := by
  unfold sliceUneven at cut
  split at cut
  · simp only [throw_eq_ok] at cut
  · rw [mapError_eq_ok] at cut
    rw [Edges.size, (Edges.list_of_new cut).1, List.length_map, Edges.length_stops positive,
      Nat.add_sub_cancel]

/-- A range in groups has one bin for each group, the last of which may be
short, and nothing but the law changes. -/
theorem Axis.size_of_slice {a new : Axis} {lo hi merge : Nat}
    (cut : a.slice lo hi merge = .ok new) :
    lo < hi ∧ hi ≤ a.size ∧ 0 < merge ∧ new.size = (hi - lo) ⌈/⌉ merge ∧
      new.options = a.options ∧ new.label = a.label := by
  simp only [slice, guard_eq_ok, bind_eq_ok, pure_eq_ok] at cut
  obtain ⟨range, law, cut, rfl⟩ := cut
  simp only [not_or, not_le, not_lt] at range
  obtain ⟨some_bin, inside, some_merge⟩ := range
  have positive : 0 < merge := Nat.pos_of_ne_zero some_merge
  refine ⟨some_bin, inside, positive, ?_, rfl, rfl⟩
  have single : ¬ 1 < merge → (hi - lo) ⌈/⌉ merge = hi - lo := by
    intro small
    rw [show merge = 1 by omega, Nat.ceilDiv_eq_add_pred_div, Nat.add_sub_cancel, Nat.div_one]
  unfold sliceLaw at cut
  unfold size at inside ⊢
  cases law_eq : a.law with
  | regular r =>
    simp only [law_eq] at cut inside
    split at cut
    · rename_i wraps
      rw [throw_ite_eq_ok, pure_eq_ok] at cut
      obtain ⟨full, rfl⟩ := cut
      simp only [not_or, not_not] at full
      obtain ⟨rfl, rfl, divides⟩ := full
      exact Regular.size_slice positive divides
    · split at cut
      · rename_i divides
        cases cut
        exact Regular.size_slice positive divides
      · rw [map_eq_ok] at cut
        obtain ⟨edges, cut, rfl⟩ := cut
        exact size_of_sliceUneven positive cut
  | edges e =>
    simp only [law_eq] at cut
    cases cut
    exact Edges.size_slice positive
  | integer r =>
    simp only [law_eq, throw_ite_eq_ok, pure_eq_ok] at cut
    obtain ⟨small, rfl⟩ := cut
    exact (single small).symm
  | category c =>
    simp only [law_eq, throw_ite_eq_ok, pure_eq_ok] at cut inside
    obtain ⟨small, rfl⟩ := cut
    exact (Category.size_slice inside).trans (single small).symm

/-- A range takes no more slots than the axis that it is cut from. -/
theorem Axis.extent_le_of_slice {a new : Axis} {lo hi merge : Nat}
    (cut : a.slice lo hi merge = .ok new) : new.extent ≤ a.extent := by
  obtain ⟨_, inside, positive, size, options, _⟩ := size_of_slice cut
  have fewer := ceilDiv_le_self (n := hi - lo) positive
  rw [extent, extent, options, size]
  omega

end Binning
