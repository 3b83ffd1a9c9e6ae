import Binning.Proofs.Registry
import Binning.Registry.InPlace

/-! The table of classes over any run of registrations, the refused ones with the
accepted. What a registration is checked for is what keeps the table consistent: a
class that takes types over from another one of its family has to name it, and since
a name is free once only, no type comes to have a third holder. -/
namespace Binning.Registry
open Results

section Step
variable {r new : Registry} {spec : ClassSpec} {cls : ClassRef}

/-! ### In place -/

theorem conflict?_cons (e : Entry) (rest : List Entry) :
    (⟨e :: rest⟩ : Registry).conflict? spec =
      ((⟨[e]⟩ : Registry).conflict? spec <|> (⟨rest⟩ : Registry).conflict? spec) := by
  unfold conflict?
  rw [List.findSome?_cons, List.findSome?_cons]
  split <;> rfl

namespace InPlace

/-- The first conflict ends the pass over the holders. -/
theorem run_checkHolder_bind {α : Type} (e : Entry) (f : Unit → InPlace α) :
    (checkHolder spec e >>= f).run r =
      match (⟨[e]⟩ : Registry).conflict? spec with
      | none => (f ()).run r
      | some (type, holder) => .error (.typeTaken type holder.cls.name spec.family.name) r := by
  rw [run_bind]
  unfold checkHolder conflict?
  by_cases other : e.cls.family ≠ spec.family ∨ e.base ≠ spec.base
  · have skipped : ¬ (e.cls.family = spec.family ∧ e.base = spec.base ∧
        spec.heirOf ≠ some e.cls.name) := by tauto
    simp only [if_pos other, List.findSome?_cons, if_neg skipped]
    rfl
  by_cases heir : some e.cls.name = spec.heirOf
  · have skipped : ¬ (e.cls.family = spec.family ∧ e.base = spec.base ∧
        spec.heirOf ≠ some e.cls.name) := by tauto
    simp only [if_neg other, if_pos heir, List.findSome?_cons, if_neg skipped]
    rfl
  · have checked : e.cls.family = spec.family ∧ e.base = spec.base ∧
        spec.heirOf ≠ some e.cls.name := by tauto
    simp only [if_neg other, if_neg heir, List.findSome?_cons, if_pos checked]
    cases e.types.find? (· ∈ spec.types) <;> rfl

theorem run_checkHolders (entries : List Entry) :
    (entries.forM (checkHolder spec)).run r =
      match (⟨entries⟩ : Registry).conflict? spec with
      | none => .ok () r
      | some (type, holder) => .error (.typeTaken type holder.cls.name spec.family.name) r := by
  induction entries with
  | nil => rfl
  | cons e rest ih =>
    change (checkHolder spec e >>= fun _ => rest.forM (checkHolder spec)).run r = _
    rw [run_checkHolder_bind, conflict?_cons e rest]
    cases (⟨[e]⟩ : Registry).conflict? spec with
    | none => exact ih
    | some => rfl

/-- The table is written only after the last check. -/
theorem run_register (spec : ClassSpec) (r : Registry) :
    (InPlace.register spec).run r =
      match r.register spec with
      | .ok (cls, new) => .ok cls new
      | .error e => .error e r := by
  unfold InPlace.register Registry.register
  by_cases twice : ¬ spec.types.Nodup
  · simp only [if_pos twice]
    rfl
  simp only [if_neg twice]
  cases spec.types.find? (·.base ≠ spec.base) with
  | some type => rfl
  | none =>
  have named : (r.entries.any fun e => e.cls.name = spec.name ∧ e.cls.family = spec.family) =
      (r.lookup spec.name spec.family).isSome := by
    rw [lookup, Option.isSome_map, List.isSome_find?]
  change EStateM.run (if (r.entries.any _) = true then _ else _) r = _
  rw [named]
  by_cases taken : (r.lookup spec.name spec.family).isSome = true
  · simp only [if_pos taken]
    rfl
  simp only [if_neg taken]
  rw [run_bind, run_checkHolders]
  cases r.conflict? spec <;> rfl

theorem run_register_eq_ok :
    (InPlace.register spec).run r = .ok cls new ↔ r.register spec = .ok (cls, new) := by
  rw [run_register]
  cases r.register spec with
  | error => exact ⟨nofun, nofun⟩
  | ok result => simp only [EStateM.Result.ok.injEq, Except.ok.injEq, Prod.ext_iff]

theorem run_register_eq_error {e : ConfigError} {left : Registry} :
    (InPlace.register spec).run r = .error e left ↔ left = r ∧ r.register spec = .error e := by
  rw [run_register]
  cases r.register spec with
  | error => simp only [EStateM.Result.error.injEq, Except.error.injEq, eq_comm, and_comm]
  | ok => exact ⟨nofun, nofun⟩

end InPlace

end Step

/-! ### Runs -/

/-- A table after any run of registrations, with the classes that the run has
registered, each with what was asked for, the latest first. -/
inductive Registered : List (ClassSpec × ClassRef) → Registry → Prop where
  | builtin : Registered [] builtin
  | accepted {log : List (ClassSpec × ClassRef)} {r new : Registry} {spec : ClassSpec}
      {cls : ClassRef} : Registered log r → (InPlace.register spec).run r = .ok cls new →
      Registered ((spec, cls) :: log) new
  | rejected {log : List (ClassSpec × ClassRef)} {r left : Registry} {spec : ClassSpec}
      {e : ConfigError} : Registered log r → (InPlace.register spec).run r = .error e left →
      Registered log left

/-- The classes of a family that claim a type, highest priority first. -/
def holders (r : Registry) (family : Family) (type : NativeType) : List Entry :=
  r.entries.filter fun e => e.cls.family = family ∧ type ∈ e.types

/-- The invariant of a run. -/
structure Ordered (log : List (ClassSpec × ClassRef)) (r : Registry) : Prop where
  numbered : (r.entries.map (·.cls.id)).Nodup
  counted : ∀ e ∈ r.entries, e.cls.id < r.entries.length
  named : (r.entries.map fun e => (e.cls.name, e.cls.family)).Nodup
  own : ∀ e ∈ r.entries, ∀ type ∈ e.types, type.base = e.base
  few : ∀ family type, (r.holders family type).length ≤ 2
  heirs : ∀ family type heir parent, r.holders family type = [heir, parent] →
    ∃ spec, (spec, heir.cls) ∈ log ∧ spec.heirOf = some parent.cls.name
  retired : ∀ name ∈ retiredClasses, ∃ e ∈ r.entries,
    e.cls.name = name ∧ e.cls.family = .main ∧ e.types = []

/-- What holds of the table after any run. -/
structure Consistent (log : List (ClassSpec × ClassRef)) (r : Registry) : Prop
    extends Ordered log r where
  spared : ∀ name ∈ retiredClasses, ∀ family type base cls,
    r.castClass family type base = .ok cls → ¬ (cls.name = name ∧ cls.family = .main)
  casts : ∀ family type, ∃ cls, r.castClass family type type.base = .ok cls
  refuses : ∀ family type base, base ≠ type.base →
    r.castClass family type base = .error (.noConversion base type)
  unchanged : ∀ spec e left, (InPlace.register spec).run r = .error e left → left = r

section Holders
variable {log : List (ClassSpec × ClassRef)} {r new : Registry} {spec : ClassSpec}
  {family : Family} {type : NativeType}

theorem mem_holders {e : Entry} :
    e ∈ r.holders family type ↔ e ∈ r.entries ∧ e.cls.family = family ∧ type ∈ e.types := by
  rw [holders, List.mem_filter, decide_eq_true_eq]

theorem holders_cons (e : Entry) (entries : List Entry) :
    (⟨e :: entries⟩ : Registry).holders family type =
      if e.cls.family = family ∧ type ∈ e.types then
        e :: (⟨entries⟩ : Registry).holders family type
      else (⟨entries⟩ : Registry).holders family type := by
  unfold holders
  rw [List.filter_cons]
  simp only [decide_eq_true_eq]

theorem holders_le_one_of_pairwise
    (apart : r.entries.Pairwise fun e f =>
      e.cls.family = f.cls.family → ∀ type ∈ e.types, type ∉ f.types) :
    (r.holders family type).length ≤ 1 := by
  have kept := apart.sublist (List.filter_sublist (p := fun e =>
    e.cls.family = family ∧ type ∈ e.types))
  change (r.holders family type).Pairwise _ at kept
  match listed : r.holders family type with
  | [] => exact Nat.zero_le 1
  | [_] => exact Nat.le_refl 1
  | e :: f :: _ =>
    obtain ⟨_, inE, claimsE⟩ := mem_holders.mp (listed ▸ List.mem_cons_self)
    obtain ⟨_, inF, claimsF⟩ := mem_holders.mp
      (listed ▸ List.mem_cons_of_mem e List.mem_cons_self)
    rw [listed] at kept
    exact absurd claimsF (List.rel_of_pairwise_cons kept List.mem_cons_self
      (inE.trans inF.symm) type claimsE)

end Holders

namespace Ordered
variable {log : List (ClassSpec × ClassRef)} {r new : Registry} {spec : ClassSpec}
  {family : Family} {type : NativeType}

theorem builtin : Ordered [] builtin := by
  have apart : Registry.builtin.entries.Pairwise fun e f =>
      e.cls.family = f.cls.family → ∀ type ∈ e.types, type ∉ f.types := by decide +kernel
  refine ⟨by decide +kernel, by decide +kernel, by decide +kernel, by decide +kernel,
    fun _ _ => (holders_le_one_of_pairwise apart).trans (by decide), ?_, by decide +kernel⟩
  intro family type heir parent listed
  have one : (Registry.builtin.holders family type).length ≤ 1 := holders_le_one_of_pairwise apart
  rw [listed] at one
  exact absurd one (Nat.not_succ_le_self 1)

section
variable (ordered : Ordered log r)
include ordered

/-- Classes of one name and one family are one class. -/
theorem length_le_one {entries : List Entry} {name : String}
    (among : entries.Sublist r.entries)
    (same : ∀ e ∈ entries, e.cls.name = name ∧ e.cls.family = family) : entries.length ≤ 1 := by
  have apart := ordered.named.sublist (among.map fun e => (e.cls.name, e.cls.family))
  have alike : (entries.map fun e => (e.cls.name, e.cls.family)) =
      List.replicate entries.length (name, family) := by
    refine List.eq_replicate_iff.mpr ⟨List.length_map _, ?_⟩
    intro pair listed
    obtain ⟨e, member, rfl⟩ := List.mem_map.mp listed
    rw [(same e member).1, (same e member).2]
  rw [alike] at apart
  exact List.nodup_replicate.mp apart

/-- A type that an accepted class claims is held by its parent, if at all. -/
theorem heirOf_of_holds (accepts : r.Accepts spec) (claims : type ∈ spec.types) {e : Entry}
    (holds : e ∈ r.holders spec.family type) : spec.heirOf = some e.cls.name := by
  obtain ⟨among, family, held⟩ := mem_holders.mp holds
  have base : e.base = spec.base :=
    (ordered.own e among type held).symm.trans (accepts.own type claims)
  exact accepts.heir e among family base type held claims

theorem holders_le_one (accepts : r.Accepts spec) (claims : type ∈ spec.types) :
    (r.holders spec.family type).length ≤ 1 := by
  match listed : r.holders spec.family type with
  | [] => decide
  | parent :: others =>
    have first := ordered.heirOf_of_holds accepts claims (listed ▸ List.mem_cons_self)
    have alike : ∀ e ∈ r.holders spec.family type,
        e.cls.name = parent.cls.name ∧ e.cls.family = spec.family := by
      intro e holds
      have named := ordered.heirOf_of_holds accepts claims holds
      exact ⟨Option.some.inj (named.symm.trans first), (mem_holders.mp holds).2.1⟩
    rw [← listed]
    exact ordered.length_le_one List.filter_sublist alike

/-- What a step of a run keeps. -/
theorem register (accepts : r.Accepts spec) :
    Ordered ((spec, (r.entry spec).cls) :: log) ⟨r.entry spec :: r.entries⟩ where
  numbered := by
    refine List.nodup_cons.mpr ⟨?_, ordered.numbered⟩
    intro taken
    obtain ⟨e, among, same⟩ := List.mem_map.mp taken
    exact absurd (ordered.counted e among) (same ▸ Nat.lt_irrefl _)
  counted := by
    refine List.forall_mem_cons.mpr ⟨Nat.lt_succ_self _, fun e among => ?_⟩
    exact Nat.lt_succ_of_lt (ordered.counted e among)
  named := by
    refine List.nodup_cons.mpr ⟨?_, ordered.named⟩
    intro taken
    obtain ⟨e, among, same⟩ := List.mem_map.mp taken
    exact accepts.free e among ⟨congrArg Prod.fst same, congrArg Prod.snd same⟩
  own := by
    refine List.forall_mem_cons.mpr ⟨fun type claims => ?_, ordered.own⟩
    exact accepts.own type (mem_typeSet.mp claims)
  few := by
    intro family type
    rw [holders_cons]
    split
    next claims =>
      obtain ⟨rfl, claims⟩ := claims
      exact Nat.succ_le_succ (ordered.holders_le_one accepts (mem_typeSet.mp claims))
    next => exact ordered.few family type
  heirs := by
    intro family type heir parent listed
    rw [holders_cons] at listed
    split at listed
    next claims =>
      obtain ⟨rfl, claims⟩ := claims
      obtain ⟨rfl, holds⟩ := List.cons.inj listed
      have holds : parent ∈ r.holders spec.family type := holds ▸ List.mem_cons_self
      exact ⟨spec, List.mem_cons_self,
        ordered.heirOf_of_holds accepts (mem_typeSet.mp claims) holds⟩
    next =>
      obtain ⟨spec, logged, named⟩ := ordered.heirs family type heir parent listed
      exact ⟨spec, List.mem_cons_of_mem _ logged, named⟩
  retired := by
    intro name retired
    obtain ⟨e, among, known⟩ := ordered.retired name retired
    exact ⟨e, List.mem_cons_of_mem _ among, known⟩

end
end Ordered

namespace Registered
variable {log : List (ClassSpec × ClassRef)} {r : Registry}

theorem known (registered : Registered log r) : r.Known := by
  induction registered with
  | builtin => exact .builtin
  | accepted _ done known => exact known.register (InPlace.run_register_eq_ok.mp done)
  | rejected _ done known => exact (InPlace.run_register_eq_error.mp done).1 ▸ known

theorem of_known (known : r.Known) : ∃ log, Registered log r := by
  induction known with
  | builtin => exact ⟨[], .builtin⟩
  | register _ done registered =>
    obtain ⟨_, registered⟩ := registered
    exact ⟨_, registered.accepted (InPlace.run_register_eq_ok.mpr done)⟩

theorem ordered (registered : Registered log r) : Ordered log r := by
  induction registered with
  | builtin => exact .builtin
  | accepted _ done ordered =>
    obtain ⟨accepts, rfl, rfl⟩ := register_eq_ok.mp (InPlace.run_register_eq_ok.mp done)
    exact ordered.register accepts
  | rejected _ done ordered => exact (InPlace.run_register_eq_error.mp done).1 ▸ ordered

end Registered

/-! ### Casts -/

section Casts
variable {log : List (ClassSpec × ClassRef)} {r : Registry} {family : Family}
  {type : NativeType} {base : Base}

theorem claimant?_eq_some {e : Entry} (found : r.claimant? family type base = some e) :
    e ∈ r.entries ∧ e.base = base ∧ type ∈ e.types ∧ e.cls.family = family :=
  ⟨List.mem_of_find?_eq_some found, by simpa using List.find?_some found⟩

theorem castEntry_eq_ok {family : Option Family} {e : Entry}
    (cast : r.castEntry family type base = .ok e) :
    e ∈ r.entries ∧ e.base = base ∧ type ∈ e.types := by
  unfold castEntry at cast
  split at cast
  next holder found =>
    cases cast
    rcases (Option.orElse_eq_some _ _ _).mp found with found | ⟨_, found⟩
    all_goals
      obtain ⟨among, base, claims, _⟩ := claimant?_eq_some found
      exact ⟨among, base, claims⟩
  next => cases cast

theorem Ordered.claimant?_eq_none (ordered : Ordered log r) (foreign : base ≠ type.base) :
    r.claimant? family type base = none := by
  refine Option.eq_none_iff_forall_not_mem.mpr fun e found => ?_
  obtain ⟨among, rfl, claims, _⟩ := claimant?_eq_some found
  exact foreign (ordered.own e among type claims).symm

end Casts

/-- The table is consistent after any run of registrations, and a refused one
leaves it as it was. -/
theorem Registered.consistent {log : List (ClassSpec × ClassRef)} {r : Registry}
    (registered : Registered log r) : Consistent log r := by
  have ordered := registered.ordered
  refine ⟨ordered, ?_, registered.known.covers.castClass, ?_, ?_⟩
  · rintro name retired family type base cls cast ⟨named, main⟩
    obtain ⟨e, found, rfl⟩ := map_eq_ok.mp cast
    obtain ⟨among, _, claims⟩ := castEntry_eq_ok found
    obtain ⟨old, kept, oldNamed, oldMain, empty⟩ := ordered.retired name retired
    have same : e = old := List.inj_on_of_nodup_map ordered.named among kept
      (Prod.ext (named.trans oldNamed.symm) (main.trans oldMain.symm))
    rw [same, empty] at claims
    exact absurd claims List.not_mem_nil
  · intro family type base foreign
    unfold castClass castEntry
    rw [ordered.claimant?_eq_none foreign, ordered.claimant?_eq_none foreign]
    rfl
  · intro spec e left refused
    exact (InPlace.run_register_eq_error.mp refused).1

/-! A class, a rival that is refused and an heir that takes the type over. -/

def integers : Family := ⟨"integers"⟩

def parent : ClassSpec := ⟨"Parent", integers, .axis, [.axis .integerNone], none, none⟩

def rival : ClassSpec := ⟨"Rival", integers, .axis, [.axis .integerNone], none, none⟩

def child : ClassSpec := ⟨"Child", integers, .axis, [.axis .integerNone], some "Parent", none⟩

def withParent : Registry := ⟨builtin.entry parent :: builtin.entries⟩

def withChild : Registry := ⟨withParent.entry child :: withParent.entries⟩

theorem registered_withParent : Registered [(parent, (builtin.entry parent).cls)] withParent :=
  .accepted .builtin (InPlace.run_register_eq_ok.mpr (register_eq_ok.mpr
    ⟨⟨by decide, by decide, by decide +kernel, by decide +kernel⟩, rfl, rfl⟩))

theorem registered_withChild : Registered [(child, (withParent.entry child).cls),
    (parent, (builtin.entry parent).cls)] withChild := by
  have refused : (InPlace.register rival).run withParent = .error
      (.typeTaken (.axis .integerNone) "Parent" "integers") withParent := by
    rfl
  refine .accepted (.rejected registered_withParent refused)
    (InPlace.run_register_eq_ok.mpr (register_eq_ok.mpr
      ⟨⟨by decide, by decide, by decide +kernel, by decide +kernel⟩, rfl, rfl⟩))

theorem consistent_withChild :
    Registered [(child, (withParent.entry child).cls), (parent, (builtin.entry parent).cls)]
      withChild ∧
    Consistent [(child, (withParent.entry child).cls), (parent, (builtin.entry parent).cls)]
      withChild :=
  ⟨registered_withChild, registered_withChild.consistent⟩

end Binning.Registry
