import Binning.Proofs.Axis.Sizes
import Binning.Proofs.Binary64.Whole

/-! The indices that a law gives. They go from one below the bins to one above
them. A law that takes an entry by growing has the index of the entry among its
new indices; whole numbers and labels are then in range. -/
namespace Binning
open Results

theorem Grid.binAt_bounds {g : Grid Float} (sized : 0 < g.size) (word : g.size < 2 ^ 63) {z : Float}
    (nonneg : ¬ z < 0) : 0 ≤ g.binAt z ∧ g.binAt z < g.size := by
  have part : 0 ≤ Scalar.toSigned (z * Scalar.ofNat g.size) :=
    Binary64.toSigned_nonneg
      (Binary64.mul_not_lt_zero nonneg (Binary64.ofNat_not_lt_zero g.size))
  rw [Grid.binAt, Word64.signed_of_lt (by omega)]
  omega

theorem Grid.index_bounds {g : Grid Float} (sized : 0 < g.size) (word : g.size < 2 ^ 63)
    (u : Float) :
    -1 ≤ g.index u ∧ g.index u ≤ g.size := by
  simp only [Grid.index]
  split
  · split
    · rename_i nonneg
      have bin := binAt_bounds sized word (Binary64.not_lt_zero_of_le nonneg)
      omega
    · omega
  · rw [Word64.signed_of_lt word]
    omega

theorem Grid.indexCircular_bounds {g : Grid Float} (sized : 0 < g.size) (word : g.size < 2 ^ 63)
    (u : Float) : 0 ≤ g.indexCircular u ∧ g.indexCircular u ≤ g.size := by
  simp only [Grid.indexCircular]
  split
  · rename_i finite
    have bin := binAt_bounds sized word (Binary64.sub_floor_not_lt_zero finite)
    exact ⟨bin.1, Int.le_of_lt bin.2⟩
  · rw [Word64.signed_of_lt word]
    omega

theorem Grid.reach_bounds {g : Grid Float} (sized : 0 < g.size) {u : Float} {reached : Reach Float}
    (done : g.reach u = .ok reached) (word : reached.grid.size < 2 ^ 63) :
    -1 ≤ reached.index ∧ reached.index ≤ reached.grid.size := by
  simp only [Grid.reach] at done
  split at done
  · split at done
    · rename_i nonneg
      cases done
      have bin := binAt_bounds sized word (Binary64.not_lt_zero_of_le nonneg)
      simp only
      omega
    split at done
    · simp only [bind_eq_ok, pure_eq_ok] at done
      obtain ⟨added, _, rfl⟩ := done
      simp only
      omega
    · cases done
      simp only
      omega
  split at done
  · simp only [bind_eq_ok, pure_eq_ok] at done
    obtain ⟨added, _, rfl⟩ := done
    simp only at word ⊢
    rw [Word64.signed_of_lt (by omega)]
    omega
  · cases done
    simp only at word ⊢
    rw [Word64.signed_of_lt word]
    omega

theorem Edges.index_bounds {e : Edges} (sized : 0 < e.size) (x : Float) :
    -1 ≤ e.index x ∧ e.index x ≤ e.size := by
  have few := (List.takeWhile_sublist (p := (· ≤ x)) (l := e.list)).length_le
  unfold Edges.index
  unfold Edges.size at *
  split <;> omega

theorem Edges.grow_bounds {e law : Edges} {x : Float} {index : Int} {front : Nat}
    (sized : 0 < e.size) (grown : e.grow x = (index, front, law)) :
    -1 ≤ index ∧ index ≤ law.size := by
  have bounds := e.index_bounds sized x
  have larger := Edges.size_of_grow sized grown
  simp only [Edges.grow] at grown
  split at grown
  · cases grown
    split <;> omega
  split at grown
  · cases grown
    omega
  split at grown
  · cases grown
    omega
  · cases grown
    omega

theorem IntegerRange.indexInt_bounds {r : IntegerRange} (word : r.size < 2 ^ 63) (x : Int) :
    -1 ≤ r.indexInt x ∧ r.indexInt x ≤ r.size := by
  rw [IntegerRange.indexInt, Word64.signed_of_lt word]
  omega

theorem IntegerRange.index_bounds {r : IntegerRange} (sized : 0 < r.size) (word : r.size < 2 ^ 63)
    (x : Float) : -1 ≤ r.index x ∧ r.index x ≤ r.size := by
  simp only [IntegerRange.index]
  rw [Word64.signed_of_lt word]
  split
  · omega
  split
  · omega
  split
  · omega
  · rename_i nonneg short
    have bin := Binary64.toSigned_lt sized word nonneg short
    have low := Binary64.toSigned_nonneg nonneg
    omega

theorem IntegerRange.grow_bounds {r law : IntegerRange} {x : Float} {index : Int} {front : Nat}
    (sized : 0 < r.size) (grown : r.grow x = .ok (index, front, law))
    (small : Word64.InMemory law.size) : 0 ≤ index ∧ index < law.size := by
  cases growsTo_of_grow grown with
  | front below counted signed =>
    simp only
    omega
  | behind nonneg beyond counted signed =>
    refine ⟨Binary64.toSigned_nonneg nonneg, ?_⟩
    rw [addedBins, throw_ite_eq_ok, pure_eq_ok] at counted
    obtain ⟨within, rfl⟩ := counted
    have few : r.size ≤ 2 ^ 53 := Word64.inMemory_iff.mp (small.mono (Nat.le_add_right ..))
    have bin := Binary64.toSigned_lt_add few (by decide) beyond within
    have reached (n : Nat) (t : Int) : (n : Int) + t ≤ (n + t.toNat : Nat) := by omega
    exact Int.lt_of_lt_of_le bin (reached _ _)
  | within nonneg short =>
    have few := Word64.inMemory_iff.mp small
    exact ⟨Binary64.toSigned_nonneg nonneg,
      Binary64.toSigned_lt sized (by omega) nonneg short⟩

theorem Category.position_le {c : Category} {label : Coord} {k : Nat}
    (found : c.position? label = some k) : k ≤ c.size := by
  unfold position? at found
  split at found
  · cases found
    exact List.idxOf_le_length
  · cases found
    exact List.idxOf_le_length
  · contradiction

/-- A label of the kind of the axis becomes one more bin. -/
theorem Category.size_append {c : Category} {label : Coord} {k : Nat}
    (found : c.position? label = some k) : (c.append label).size = c.size + 1 := by
  unfold position? at found
  split at found
  · exact List.length_append ..
  · exact List.length_append ..
  · contradiction

theorem Category.position_of_index {c : Category} {label : Coord} {i : Int}
    (found : c.index label = .ok i) : ∃ k, c.position? label = some k ∧ i = (k : Nat) := by
  unfold index at found
  split at found
  · rename_i k position
    cases found
    exact ⟨k, position, rfl⟩
  · cases found

theorem Category.index_bounds {c : Category} {label : Coord} {i : Int}
    (found : c.index label = .ok i) : 0 ≤ i ∧ i ≤ c.size := by
  obtain ⟨k, position, rfl⟩ := position_of_index found
  have bound := position_le position
  omega

theorem Category.grow_bounds {c law : Category} {label : Coord} {i : Int}
    (grown : c.grow label = .ok (i, law)) : 0 ≤ i ∧ i < law.size := by
  simp only [Category.grow, bind_eq_ok, pure_eq_ok] at grown
  obtain ⟨j, found, same⟩ := grown
  cases same
  have bounds := index_bounds found
  split
  · exact ⟨bounds.1, ‹_›⟩
  · obtain ⟨k, position, rfl⟩ := position_of_index found
    have grows := size_append position
    omega

end Binning
