import Binning.ClassedAxis
import Binning.Proofs.Axis.Sizes
import Binning.Proofs.Axis.Slots

/-! The axes that a program can have: those that are built, and those that come
from them by cutting, growing and labelling. All of them have a bin. Casting an
axis to a class is a matter of labels as long as the converters are. -/
namespace Binning

/-- The axes that a program can make. -/
inductive Axis.Made : Axis → Prop where
  | built {b : Blueprint} {requested : Options} {label : Option String} {a : Axis} :
      b.build requested label = .ok a → Made a
  | cut {a new : Axis} {lo hi merge : Nat} : Made a → a.slice lo hi merge = .ok new → Made new
  | grown {a new : Axis} {c : Coord} {p : Placement} :
      Made a → a.locate c = .ok p → p.grown = some new → Made new
  | labelled {a : Axis} (label : Option String) : Made a → Made { a with label }

theorem Axis.Made.size_pos {a : Axis} (made : a.Made) : 0 < a.size := by
  induction made with
  | built done => exact size_of_build done
  | cut _ done _ =>
    obtain ⟨some_bin, _, positive, size, _⟩ := size_of_slice done
    rw [size, ceilDiv_eq_div_add positive]
    split
    · rename_i divides
      exact Nat.div_pos (Nat.le_of_dvd (by omega) (Nat.dvd_of_mod_eq_zero divides)) positive
    · exact Nat.succ_pos _
  | grown _ done grows size =>
    exact Nat.lt_of_lt_of_le size (Nat.le_trans (Nat.le_add_right ..)
      (size_of_locate size done grows).1)
  | labelled _ _ size => exact size

/-! ### Slots -/

/-- The same indices have the same slots on both axes. -/
structure Axis.SameSlots (a b : Axis) : Prop where
  size : b.size = a.size
  options : b.options = a.options

/-- The axes differ at most in their labels. -/
def Axis.SameShape (a b : Axis) : Prop := ∃ label, b = { a with label }

namespace Axis

theorem SameSlots.extent_eq {a b : Axis} (same : SameSlots a b) : a.extent = b.extent := by
  rw [extent, extent, same.size, same.options]

theorem SameSlots.slot_eq {a b : Axis} (same : SameSlots a b) (i : Int) : a.slot i = b.slot i := by
  rw [slot, slot, same.options]

theorem SameSlots.representable_eq {a b : Axis} (same : SameSlots a b) (i : Int) :
    a.representable i = b.representable i := by
  have beyond : b.beyond = a.beyond := congrArg Word64.signed same.size
  have inside : b.InRange i ↔ a.InRange i := by rw [InRange, InRange, beyond]
  simp only [representable, same.options, beyond, inside]

theorem SameShape.refl (a : Axis) : SameShape a a := ⟨a.label, rfl⟩

theorem SameShape.sameSlots {a b : Axis} (same : SameShape a b) : SameSlots a b := by
  obtain ⟨label, rfl⟩ := same
  exact ⟨rfl, rfl⟩

variable {axes others : List Axis}

section
variable (same : List.Forall₂ SameSlots axes others)
include same

theorem extents_of_sameSlots : axes.map extent = others.map extent := by
  induction same with
  | nil => rfl
  | cons first _ ih => exact congrArg₂ List.cons first.extent_eq ih

theorem slotsOf_of_sameSlots (is : List Int) : slotsOf axes is = slotsOf others is := by
  induction same generalizing is with
  | nil => rfl
  | cons first _ ih =>
    cases is with
    | nil => rfl
    | cons i is => exact congrArg₂ List.cons (first.slot_eq i) (ih is)

theorem place_of_sameSlots (is : List Int) : place axes is = place others is := by
  rw [place, place, extents_of_sameSlots same, slotsOf_of_sameSlots same]

theorem addresses_of_sameSlots {is : List Int} : Addresses axes is ↔ Addresses others is := by
  induction same generalizing is with
  | nil => rfl
  | cons first _ ih =>
    cases is with
    | nil => exact ⟨(nomatch ·), (nomatch ·)⟩
    | cons i is =>
      unfold Addresses at ih ⊢
      rw [List.forall₂_cons, List.forall₂_cons, ih, first.representable_eq]

end

theorem sameSlots_of_sameShape (same : List.Forall₂ SameShape axes others) :
    List.Forall₂ SameSlots axes others :=
  same.imp fun _ _ shape => shape.sameSlots

theorem extents_of_sameShape (same : List.Forall₂ SameShape axes others) :
    axes.map extent = others.map extent :=
  extents_of_sameSlots (sameSlots_of_sameShape same)

theorem fits_of_sameShape (same : List.Forall₂ SameShape axes others)
    (fits : ∀ a ∈ others, a.Fits) : ∀ a ∈ axes, a.Fits := by
  induction same with
  | nil => exact fun _ none => absurd none List.not_mem_nil
  | cons first _ ih =>
    obtain ⟨head, tail⟩ := List.forall_mem_cons.mp fits
    obtain ⟨label, rfl⟩ := first
    exact List.forall_mem_cons.mpr ⟨head, ih tail⟩

theorem place_of_sameShape (same : List.Forall₂ SameShape axes others) (is : List Int) :
    place axes is = place others is :=
  place_of_sameSlots (sameSlots_of_sameShape same) is

theorem addresses_of_sameShape (same : List.Forall₂ SameShape axes others) {is : List Int} :
    Addresses axes is ↔ Addresses others is :=
  addresses_of_sameSlots (sameSlots_of_sameShape same)

end Axis

/-- Every converter leaves the bins and the options of an axis alone. -/
def Registry.KeepsShape (r : Registry) : Prop :=
  ∀ e ∈ r.entries, ∀ convert, e.converter = some convert →
    ∀ a, (convert a).law = a.law ∧ (convert a).options = a.options

theorem Registry.builtin_keepsShape : Registry.builtin.KeepsShape := by
  have plain : ∀ e ∈ Registry.builtin.entries, e.converter.isNone = true := by decide +kernel
  intro e among convert converts
  have none := plain e among
  rw [converts] at none
  contradiction

theorem ClassedAxis.axis_of_cast {r : Registry} (keeps : r.KeepsShape) {family : Option Family}
    {a : Axis} {c : ClassedAxis} (done : cast r family a = .ok c) :
    a.SameShape c.axis := by
  simp only [cast, Registry.castAxis, Results.bind_eq_ok, Results.pure_eq_ok] at done
  obtain ⟨_, ⟨cls, _, rfl⟩, rfl⟩ := done
  cases found : r.find? cls >>= Registry.Entry.converter with
  | none => exact ⟨a.label, rfl⟩
  | some convert =>
    obtain ⟨e, entry, converts⟩ := Option.bind_eq_some_iff.mp found
    obtain ⟨law, options⟩ := keeps e (List.mem_of_find?_eq_some entry) convert converts a
    refine ⟨(convert a).label, ?_⟩
    change convert a = _
    rw [← law, ← options]

theorem Axis.Made.cast {r : Registry} (keeps : r.KeepsShape) {family : Option Family} {a : Axis}
    {c : ClassedAxis} (made : a.Made) (done : ClassedAxis.cast r family a = .ok c) :
    c.axis.Made := by
  obtain ⟨label, same⟩ := ClassedAxis.axis_of_cast keeps done
  exact same ▸ made.labelled label

end Binning
