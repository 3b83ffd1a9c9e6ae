import Binning.Keywords
import Mathlib.Data.List.Sort
import Mathlib.Data.String.Basic

/-! Keywords as a finite map. What is inserted or erased changes one name and no other,
and the entries stand in the order of the names, so the values determine them. -/
namespace Binning.Keywords

variable {k l : Keywords} {name value : String}

/-! ### Values -/

theorem get?_cons (entry : String × String) (rest : List (String × String)) (name : String) :
    get? ⟨entry :: rest⟩ name = if name = entry.1 then some entry.2 else get? ⟨rest⟩ name := by
  obtain ⟨first, value⟩ := entry
  simp only [get?, List.lookup_cons]
  by_cases same : name = first
  · rw [if_pos same, beq_iff_eq.mpr same]
  · rw [if_neg same, beq_false_of_ne same]

@[simp] theorem get?_empty (name : String) : ({} : Keywords).get? name = none := rfl

theorem get?_insert (k : Keywords) (name value other : String) :
    (k.insert name value).get? other = if other = name then some value else k.get? other := by
  obtain ⟨entries⟩ := k
  simp only [insert]
  induction entries with
  | nil => rw [insertEntry, get?_cons]
  | cons entry rest ih =>
    simp only [insertEntry]
    split
    · rw [get?_cons]
    split
    · rename_i same
      simp only [get?_cons, same]
      split <;> rfl
    · rename_i different
      simp only [get?_cons, ih]
      split
      · rename_i first
        rw [if_neg (first ▸ Ne.symm different)]
      · rfl

theorem get?_erase (k : Keywords) (name other : String) :
    (k.erase name).get? other = if other = name then none else k.get? other := by
  obtain ⟨entries⟩ := k
  simp only [erase]
  induction entries with
  | nil => exact (ite_self none).symm
  | cons entry rest ih =>
    rw [List.filter_cons]
    split
    · rename_i kept
      simp only [get?_cons, ih]
      split
      · rename_i first
        rw [if_neg (first ▸ bne_iff_ne.mp kept)]
      · rfl
    · rename_i gone
      obtain rfl : entry.1 = name := by simpa using gone
      simp only [get?_cons, ih]
      split <;> rfl

theorem isSome_get?_iff : (k.get? name).isSome ↔ name ∈ k.entries.map (·.1) := by
  simp only [get?, List.lookup_isSome_iff, List.mem_map, beq_iff_eq, @eq_comm _ name]

/-! ### Order -/

/-- The names of the entries increase. -/
def Ordered (k : Keywords) : Prop := k.entries.Pairwise fun e f => e.1 < f.1

theorem ordered_empty : Ordered {} := List.Pairwise.nil

theorem mem_insertEntry {name value : String} {entry : String × String}
    {entries : List (String × String)} (found : entry ∈ insertEntry name value entries) :
    entry = (name, value) ∨ entry ∈ entries := by
  induction entries with
  | nil => exact .inl (List.mem_singleton.mp found)
  | cons first rest ih =>
    simp only [insertEntry] at found
    split at found
    · exact List.mem_cons.mp found
    split at found
    · exact (List.mem_cons.mp found).imp_right (List.mem_cons_of_mem first)
    · rcases List.mem_cons.mp found with rfl | later
      · exact .inr List.mem_cons_self
      · exact (ih later).imp_right (List.mem_cons_of_mem first)

theorem Ordered.insert (ordered : k.Ordered) (name value : String) :
    (k.insert name value).Ordered := by
  obtain ⟨entries⟩ := k
  simp only [Ordered, Keywords.insert] at ordered ⊢
  induction entries with
  | nil => exact List.pairwise_singleton ..
  | cons first rest ih =>
    obtain ⟨above, others⟩ := List.pairwise_cons.mp ordered
    simp only [insertEntry]
    split
    · rename_i before
      refine List.pairwise_cons.mpr ⟨fun entry found => ?_, ordered⟩
      rcases List.mem_cons.mp found with rfl | later
      · exact before
      · exact before.trans (above entry later)
    split
    · rename_i same
      exact List.pairwise_cons.mpr ⟨fun entry later => same ▸ above entry later, others⟩
    · rename_i not_before different
      refine List.pairwise_cons.mpr ⟨fun entry found => ?_, ih others⟩
      rcases mem_insertEntry found with rfl | later
      · exact lt_of_le_of_ne (not_lt.mp not_before) (Ne.symm different)
      · exact above entry later

theorem Ordered.get?_eq_some_iff (ordered : k.Ordered) :
    k.get? name = some value ↔ (name, value) ∈ k.entries := by
  obtain ⟨entries⟩ := k
  simp only [Ordered] at ordered ⊢
  induction entries with
  | nil => exact ⟨nofun, nofun⟩
  | cons first rest ih =>
    obtain ⟨above, others⟩ := List.pairwise_cons.mp ordered
    rw [get?_cons, List.mem_cons]
    split
    · rename_i same
      have later : (name, value) ∉ rest := fun found => (above _ found).ne same.symm
      rw [or_iff_left later, Option.some.injEq, Prod.ext_iff, eq_comm]
      exact (and_iff_right same).symm
    · rename_i different
      rw [ih others, Prod.ext_iff, or_iff_right fun same => different same.1]

/-- Ordered keywords with the same values are the same. -/
theorem Ordered.ext (left : k.Ordered) (right : l.Ordered)
    (same : ∀ name, k.get? name = l.get? name) : k = l := by
  have members : ∀ entry, entry ∈ k.entries ↔ entry ∈ l.entries := by
    intro entry
    rw [← left.get?_eq_some_iff, ← right.get?_eq_some_iff, same]
  have : Std.Irrefl fun e f : String × String => e.1 < f.1 := ⟨fun e => lt_irrefl e.1⟩
  have : Std.Antisymm fun e f : String × String => e.1 < f.1 :=
    ⟨fun _ _ before after => absurd after before.asymm⟩
  have listed : k.entries = l.entries := List.Pairwise.eq_of_mem_iff left right members
  cases k
  cases l
  exact congrArg Keywords.mk listed

end Binning.Keywords
