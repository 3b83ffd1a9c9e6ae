import Binning.Proofs.Axis.Made
import Binning.Storage.Basic

/-! The registries that a program can have. Registering only adds classes, so
the types that the main family claims from the start stay claimed, and every
axis and every storage can be cast. -/
namespace Binning.Registry
open Results

/-- The classes from the start, and those that are registered after them. -/
inductive Known : Registry → Prop where
  | builtin : Known builtin
  | register {r new : Registry} {spec : ClassSpec} {cls : ClassRef} :
      Known r → r.register spec = .ok (cls, new) → Known new

/-- Every native type has a class of the main family. -/
def Covers (r : Registry) : Prop :=
  ∀ type : NativeType, (r.claimant? .main type type.base).isSome = true

/-- No class converts the axes that are cast to it. -/
def Plain (r : Registry) : Prop := ∀ e ∈ r.entries, e.converter = none

theorem builtin_covers : builtin.Covers := by
  have all : ∀ type ∈ NativeType.all,
      (builtin.claimant? .main type type.base).isSome = true := by decide +kernel
  intro type
  exact all type type.mem_all

theorem builtin_plain : builtin.Plain := by
  have none_converts : ∀ e ∈ builtin.entries, e.converter.isNone = true := by decide +kernel
  intro e among
  exact Option.isNone_iff_eq_none.mp (none_converts e among)

variable {r new : Registry}

/-! ### Registrations -/

theorem mem_typeSet {type : NativeType} {types : List NativeType} :
    type ∈ typeSet types ↔ type ∈ types := by
  simp [typeSet, type.mem_all]

/-- What a class is checked for before it is registered. -/
structure Accepts (r : Registry) (spec : ClassSpec) : Prop where
  once : spec.types.Nodup
  own : ∀ type ∈ spec.types, type.base = spec.base
  free : ∀ e ∈ r.entries, ¬ (e.cls.name = spec.name ∧ e.cls.family = spec.family)
  heir : ∀ e ∈ r.entries, e.cls.family = spec.family → e.base = spec.base →
    ∀ type ∈ e.types, type ∈ spec.types → spec.heirOf = some e.cls.name

section
variable {spec : ClassSpec} {cls : ClassRef}

theorem lookup_isSome : (r.lookup spec.name spec.family).isSome = true ↔
    ∃ e ∈ r.entries, e.cls.name = spec.name ∧ e.cls.family = spec.family := by
  simp only [lookup, Option.isSome_map, List.find?_isSome, decide_eq_true_eq]

theorem conflict?_eq_none : r.conflict? spec = none ↔
    ∀ e ∈ r.entries, e.cls.family = spec.family → e.base = spec.base →
      ∀ type ∈ e.types, type ∈ spec.types → spec.heirOf = some e.cls.name := by
  rw [conflict?, List.findSome?_eq_none_iff]
  refine forall₂_congr fun e _ => ?_
  split
  next checked =>
    obtain ⟨family, base, stranger⟩ := checked
    simp [family, base, stranger]
  next skipped =>
    simp only [true_iff]
    intro family base _ _ _
    exact of_not_not fun stranger => skipped ⟨family, base, stranger⟩

/-- All that an accepted registration does. -/
theorem register_eq_ok : r.register spec = .ok (cls, new) ↔
    r.Accepts spec ∧ cls = (r.entry spec).cls ∧ new = ⟨r.entry spec :: r.entries⟩ := by
  unfold register
  rw [guard_eq_ok]
  cases foreign : spec.types.find? (·.base ≠ spec.base) with
  | some type =>
    have claimed := List.mem_of_find?_eq_some foreign
    have strange := List.find?_some foreign
    simp only [bind_eq_ok, throw_eq_ok, false_and, exists_false, and_false, false_iff]
    rintro ⟨accepts, _⟩
    simp [accepts.own type claimed] at strange
  | none =>
  have own : ∀ type ∈ spec.types, type.base = spec.base := by
    simpa [List.find?_eq_none] using foreign
  simp only [guard_eq_ok, lookup_isSome]
  cases conflict : r.conflict? spec with
  | some taken =>
    simp only [bind_eq_ok, throw_eq_ok, false_and, exists_false, and_false, false_iff]
    rintro ⟨accepts, _⟩
    rw [conflict?_eq_none.mpr accepts.heir] at conflict
    contradiction
  | none =>
  have heir := conflict?_eq_none.mp conflict
  simp only [pure_eq_ok, Prod.mk.injEq, not_not, not_exists, not_and]
  constructor
  · rintro ⟨once, free, rfl, rfl⟩
    exact ⟨⟨once, own, fun e among taken => free e among taken.1 taken.2, heir⟩, rfl, rfl⟩
  · rintro ⟨accepts, rfl, rfl⟩
    exact ⟨accepts.once, fun e among name family => accepts.free e among ⟨name, family⟩, rfl, rfl⟩

end

/-! ### Casts -/

theorem Known.covers (known : r.Known) : r.Covers := by
  induction known with
  | builtin => exact builtin_covers
  | register _ done covers =>
    obtain ⟨_, _, rfl⟩ := register_eq_ok.mp done
    intro type
    have claimed := covers type
    rw [claimant?, List.find?_isSome] at claimed ⊢
    obtain ⟨holder, among, claims⟩ := claimed
    exact ⟨holder, List.mem_cons_of_mem _ among, claims⟩

namespace Covers
variable (covers : r.Covers) (family : Option Family)
include covers

theorem castClass (type : NativeType) : ∃ cls, r.castClass family type type.base = .ok cls := by
  obtain ⟨holder, claims⟩ := Option.isSome_iff_exists.mp (covers type)
  unfold Registry.castClass castEntry
  rw [claims]
  cases r.claimant? (family.getD .main) type type.base with
  | none => exact ⟨_, rfl⟩
  | some => exact ⟨_, rfl⟩

theorem cast (a : Axis) : ∃ c, ClassedAxis.cast r family a = .ok c := by
  obtain ⟨cls, found⟩ := covers.castClass family (.axis a.kind)
  have found : r.castClass family (.axis a.kind) .axis = .ok cls := found
  unfold ClassedAxis.cast castAxis
  rw [found]
  exact ⟨_, rfl⟩

theorem castAll (axes : List Axis) :
    ∃ classed, axes.mapM (ClassedAxis.cast r family) = .ok classed :=
  exists_mapM_eq_ok fun a _ => covers.cast family a

omit family in
theorem inFamily (family : Family) (kind : StorageKind) :
    ∃ storage, Storage.inFamily r family kind = .ok storage := by
  obtain ⟨cls, found⟩ := covers.castClass (some family) (.storage kind)
  have found : r.castClass (some family) (.storage kind) .storage = .ok cls := found
  unfold Storage.inFamily
  rw [found]
  exact ⟨_, rfl⟩

end Covers

namespace Plain
variable (plain : r.Plain)
include plain

theorem keepsShape : r.KeepsShape := by
  intro e among convert converts
  rw [plain e among] at converts
  contradiction

theorem axis_of_cast {family : Option Family} {a : Axis} {c : ClassedAxis}
    (done : ClassedAxis.cast r family a = .ok c) : c.axis = a := by
  simp only [ClassedAxis.cast, castAxis, bind_eq_ok, pure_eq_ok] at done
  obtain ⟨_, ⟨cls, _, rfl⟩, rfl⟩ := done
  cases found : r.find? cls with
  | none => rfl
  | some e =>
    change (e.converter.elim a (· a)) = a
    rw [plain e (List.mem_of_find?_eq_some found)]
    rfl

theorem axes_of_cast {family : Option Family} {axes : List Axis} {classed : List ClassedAxis}
    (done : List.Forall₂ (fun a c => ClassedAxis.cast r family a = .ok c) axes classed) :
    classed.map ClassedAxis.axis = axes := by
  induction done with
  | nil => rfl
  | cons first _ ih => exact congrArg₂ List.cons (plain.axis_of_cast first) ih

end Plain
end Binning.Registry
