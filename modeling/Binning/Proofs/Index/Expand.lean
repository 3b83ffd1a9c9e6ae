import Binning.Index
import Binning.Proofs.Results

/-! Expansion of index expressions: entries without an ellipsis are one for each
axis, and a single ellipsis makes room for the full range of every axis that is
not named. -/
namespace Binning.Index
open Results

/-- The entries of `expanded` are one for each of `rank` axes; they are those
given, with full ranges in the place of an ellipsis. -/
structure Expands (entries : List Index) (rank : Nat) (expanded : List Index) : Prop where
  length : expanded.length = rank
  entries : (∀ e ∈ entries, e.isEllipsis = false) ∧ expanded = entries ∨
    ∃ before after n, (∀ e ∈ before ++ after, e.isEllipsis = false) ∧
      entries = before ++ ellipsis :: after ∧
      expanded = before ++ List.replicate n (slice {}) ++ after

def spread (fill : List Index) : Index → List Index
  | ellipsis => fill
  | entry => [entry]

theorem flatMap_spread {entries : List Index} (named : ∀ e ∈ entries, e.isEllipsis = false)
    (fill : List Index) : entries.flatMap (spread fill) = entries := by
  induction entries with
  | nil => rfl
  | cons e entries ih =>
    obtain ⟨head, tail⟩ := List.forall_mem_cons.mp named
    rw [List.flatMap_cons, ih tail]
    cases e with
    | ellipsis => contradiction
    | pick | slice => rfl

theorem expand_eq_ok {entries expanded : List Index} {rank : Nat}
    (done : expand entries rank = .ok expanded) :
    entries.countP isEllipsis ≤ 1 ∧ entries.length ≤ rank ∧
      (entries.countP isEllipsis = 0 → entries.length = rank) ∧
      expanded = entries.flatMap
        (spread (List.replicate (rank + 1 - entries.length) (slice {}))) := by
  simp only [expand, guard_eq_ok, pure_eq_ok] at done
  obtain ⟨single, short, complete, rfl⟩ := done
  refine ⟨by omega, by omega, by omega, ?_⟩
  congr 1

/-- Entries that are one for each axis stay as they are. -/
theorem expand_of_named {entries : List Index} {rank : Nat}
    (named : ∀ e ∈ entries, e.isEllipsis = false) (same : entries.length = rank) :
    expand entries rank = .ok entries := by
  have none_stands : entries.countP isEllipsis = 0 := by
    simpa [List.countP_eq_zero] using named
  have spread := flatMap_spread named (List.replicate (rank + 1 - entries.length) (slice {}))
  simp only [expand, guard_eq_ok, pure_eq_ok]
  exact ⟨by omega, by omega, by omega, spread⟩

theorem expands_of_expand {entries expanded : List Index} {rank : Nat}
    (done : expand entries rank = .ok expanded) : Expands entries rank expanded := by
  obtain ⟨single, short, complete, same⟩ := expand_eq_ok done
  rcases Nat.eq_zero_or_pos (entries.countP isEllipsis) with none | some
  · have named : ∀ e ∈ entries, e.isEllipsis = false := by
      simpa [List.countP_eq_zero] using none
    rw [flatMap_spread named] at same
    exact ⟨same ▸ complete none, .inl ⟨named, same⟩⟩
  · obtain ⟨e, among, is_ellipsis⟩ := List.countP_pos_iff.mp some
    cases e with
    | pick | slice => contradiction
    | ellipsis =>
    obtain ⟨before, after, rfl⟩ := List.append_of_mem among
    rw [List.countP_append, List.countP_cons_of_pos rfl] at single
    have first : ∀ e ∈ before, e.isEllipsis = false := by
      simpa [List.countP_eq_zero] using show before.countP isEllipsis = 0 by omega
    have last : ∀ e ∈ after, e.isEllipsis = false := by
      simpa [List.countP_eq_zero] using show after.countP isEllipsis = 0 by omega
    rw [List.flatMap_append, List.flatMap_cons, flatMap_spread first, flatMap_spread last] at same
    rw [spread, ← List.append_assoc] at same
    refine ⟨?_, .inr ⟨before, after, _, List.forall_mem_append.mpr ⟨first, last⟩, rfl, same⟩⟩
    simp only [same, List.length_append, List.length_cons, List.length_replicate] at short ⊢
    omega

end Binning.Index
