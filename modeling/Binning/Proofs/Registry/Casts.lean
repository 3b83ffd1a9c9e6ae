import Binning.Proofs.Registry.Registered

/-! What a registration changes about casts. The new class stands before all others,
so it is found first wherever it claims the type in the wanted family; as a class of
the main family it also stands in wherever the wanted family claims nothing. No
other cast is changed. -/
namespace Binning.Registry
open Results

variable {log : List (ClassSpec × ClassRef)} {r new : Registry} {spec : ClassSpec}
  {cls : ClassRef}

theorem claimant?_cons (e : Entry) (rest : List Entry) (family : Family) (type : NativeType)
    (base : Base) :
    (⟨e :: rest⟩ : Registry).claimant? family type base =
      if e.base = base ∧ type ∈ e.types ∧ e.cls.family = family then some e
      else (⟨rest⟩ : Registry).claimant? family type base := by
  unfold claimant?
  rw [List.find?_cons]
  by_cases claims : e.base = base ∧ type ∈ e.types ∧ e.cls.family = family
  · simp only [claims, and_self, decide_true, if_true]
  · simp only [if_neg claims, decide_eq_false claims]

/-! ### One pass -/

theorem walk_eq (family : Family) (type : NativeType) (base : Base) (fallback : Option Entry)
    (entries : List Entry) :
    walk family type base fallback entries =
      ((⟨entries⟩ : Registry).claimant? family type base <|>
        (fallback <|> (⟨entries⟩ : Registry).claimant? .main type base)) := by
  induction entries generalizing fallback with
  | nil => cases fallback <;> rfl
  | cons e rest ih =>
    rw [walk, claimant?_cons, claimant?_cons]
    by_cases skipped : e.base ≠ base ∨ type ∉ e.types
    · rw [if_pos skipped, ih, if_neg (by tauto), if_neg (by tauto)]
    obtain ⟨own, claims⟩ : e.base = base ∧ type ∈ e.types := by tauto
    rw [if_neg skipped]
    simp only [own, claims, true_and]
    by_cases wanted : e.cls.family = family
    · simp only [if_pos wanted]
      rfl
    simp only [if_neg wanted]
    by_cases main : e.cls.family = .main
    · cases fallback with
      | none => simp only [Option.isNone_none, main, and_self, if_true, ih]; rfl
      | some => simp only [Option.isNone_some, Bool.false_eq_true, false_and, if_false, ih]; rfl
    · simp only [main, and_false, if_false, ih]

/-- A cast takes one pass over the table. -/
theorem castEntry_eq_walk (family : Option Family) (type : NativeType) (base : Base) :
    r.castEntry family type base =
      match walk (family.getD .main) type base none r.entries with
      | some e => .ok e
      | none => .error (.noConversion base type) := by
  rw [walk_eq]
  rfl

/-! ### After a registration -/

/-- The casts that go to a class once it is registered. -/
def Redirects (r : Registry) (spec : ClassSpec) (family : Option Family) (type : NativeType)
    (base : Base) : Prop :=
  type ∈ spec.types ∧ base = spec.base ∧
    (spec.family = family.getD .main ∨
      spec.family = .main ∧ ∀ e ∈ r.entries, e.cls.family = family.getD .main → type ∉ e.types)

instance (r : Registry) (spec : ClassSpec) (family : Option Family) (type : NativeType)
    (base : Base) : Decidable (r.Redirects spec family type base) :=
  inferInstanceAs (Decidable (_ ∧ _ ∧ (_ ∨ _ ∧ _)))

theorem claimant?_register (family : Family) (type : NativeType) (base : Base) :
    (⟨r.entry spec :: r.entries⟩ : Registry).claimant? family type base =
      if type ∈ spec.types ∧ base = spec.base ∧ spec.family = family then some (r.entry spec)
      else r.claimant? family type base := by
  rw [claimant?_cons]
  refine if_congr ?_ rfl rfl
  change spec.base = base ∧ type ∈ typeSet spec.types ∧ spec.family = family ↔ _
  rw [mem_typeSet, eq_comm (a := spec.base)]
  tauto

theorem Ordered.claimant?_eq_none_iff (ordered : Ordered log r) {family : Family}
    {type : NativeType} {base : Base} (own : type.base = base) :
    r.claimant? family type base = none ↔
      ∀ e ∈ r.entries, e.cls.family = family → type ∉ e.types := by
  simp only [claimant?, List.find?_eq_none, decide_eq_true_eq, not_and]
  refine forall₂_congr fun e among => ⟨fun free same claims => ?_, fun free _ claims same => ?_⟩
  · exact free ((ordered.own e among type claims).symm.trans own) claims same
  · exact free same claims

theorem Ordered.castEntry_register (ordered : Ordered log r) (accepts : r.Accepts spec)
    (family : Option Family) (type : NativeType) (base : Base) :
    (⟨r.entry spec :: r.entries⟩ : Registry).castEntry family type base =
      if r.Redirects spec family type base then .ok (r.entry spec)
      else r.castEntry family type base := by
  unfold castEntry
  rw [claimant?_register, claimant?_register]
  by_cases claims : type ∈ spec.types ∧ base = spec.base
  · obtain ⟨claims, rfl⟩ := claims
    have free : r.claimant? (family.getD .main) type spec.base = none ↔ _ :=
      ordered.claimant?_eq_none_iff (accepts.own type claims)
    simp only [Redirects, claims, true_and, ← free]
    by_cases wanted : spec.family = family.getD .main
    · simp only [wanted, if_true, true_or]
      rfl
    simp only [wanted, if_false, false_or]
    cases r.claimant? (family.getD .main) type spec.base with
    | some holder => simp only [reduceCtorEq, and_false, if_false]; rfl
    | none =>
      by_cases main : spec.family = .main
      · simp only [main, if_true, and_self]; rfl
      · simp only [main, if_false, false_and]
  · have stays : ¬ r.Redirects spec family type base := fun redirects =>
      claims ⟨redirects.1, redirects.2.1⟩
    simp only [if_neg stays, ← and_assoc, claims, false_and, if_false]

/-- No two classes share a number. -/
theorem Ordered.entry_unique (ordered : Ordered log r) {e f : Entry} (first : e ∈ r.entries)
    (second : f ∈ r.entries) (same : (f.cls == e.cls) = true) : f = e :=
  List.inj_on_of_nodup_map ordered.numbered second first (eq_of_beq same : f.cls.id = e.cls.id)

theorem Ordered.find?_cls (ordered : Ordered log r) {e : Entry} (among : e ∈ r.entries) :
    r.find? e.cls = some e := by
  unfold find?
  have isSome : (r.entries.find? (·.cls == e.cls)).isSome = true :=
    List.find?_isSome.mpr ⟨e, among, beq_self_eq_true e.cls.id⟩
  obtain ⟨f, found⟩ := Option.isSome_iff_exists.mp isSome
  have same : (f.cls == e.cls) = true := by simpa only using List.find?_some found
  rw [found, ordered.entry_unique among (List.mem_of_find?_eq_some found) same]

theorem Ordered.castAxis_eq (ordered : Ordered log r) (family : Option Family) (a : Axis) :
    r.castAxis family a =
      (fun e => (e.cls, e.converter.elim a (· a))) <$> r.castEntry family (.axis a.kind) .axis := by
  unfold castAxis castClass
  cases cast : r.castEntry family (.axis a.kind) .axis with
  | error => rfl
  | ok e =>
    change Except.ok (e.cls, (r.find? e.cls >>= Entry.converter).elim a (· a)) = _
    rw [ordered.find?_cls (castEntry_eq_ok cast).1]
    rfl

/-- An axis is converted by the class that it is cast to, and by no other. -/
theorem Ordered.castAxis_eq_ok (ordered : Ordered log r) (family : Option Family) (a : Axis)
    (c : ClassRef) (converted : Axis) : r.castAxis family a = .ok (c, converted) ↔
      r.castClass family (.axis a.kind) .axis = .ok c ∧
        ∃ e ∈ r.entries, e.cls = c ∧ (∀ f ∈ r.entries, f.cls == c → f = e) ∧
          converted = e.converter.elim a (· a) := by
  rw [ordered.castAxis_eq, castClass, map_eq_ok, map_eq_ok]
  constructor
  · rintro ⟨e, cast, result⟩
    obtain ⟨rfl, rfl⟩ := Prod.mk.inj result
    have among := (castEntry_eq_ok cast).1
    exact ⟨⟨e, cast, rfl⟩, e, among, rfl, fun f => ordered.entry_unique among, rfl⟩
  · rintro ⟨⟨f, cast, rfl⟩, e, among, _, unique, rfl⟩
    have same := unique f (castEntry_eq_ok cast).1 (beq_self_eq_true f.cls.id)
    exact ⟨f, cast, same ▸ rfl⟩

/-- What a registration changes about casts, and what it leaves as it was. -/
structure Redirected (r : Registry) (spec : ClassSpec) (cls : ClassRef) (new : Registry) :
    Prop where
  casts : ∀ family type base, new.castClass family type base =
    if r.Redirects spec family type base then .ok cls else r.castClass family type base
  others : spec.family ≠ .main → ∀ family type base, family.getD .main ≠ spec.family →
    new.castClass family type base = r.castClass family type base
  axes : ∀ family a, new.castAxis family a =
    if r.Redirects spec family (.axis a.kind) .axis then .ok (cls, spec.converter.elim a (· a))
    else r.castAxis family a
  converts : ∀ family a c converted, new.castAxis family a = .ok (c, converted) ↔
    new.castClass family (.axis a.kind) .axis = .ok c ∧
      ∃ e ∈ new.entries, e.cls = c ∧ (∀ f ∈ new.entries, f.cls == c → f = e) ∧
        converted = e.converter.elim a (· a)

theorem Registered.redirected (registered : Registered log r)
    (done : (InPlace.register spec).run r = .ok cls new) : Redirected r spec cls new := by
  have after := (registered.accepted done).ordered
  have before := registered.ordered
  obtain ⟨accepts, rfl, rfl⟩ := register_eq_ok.mp (InPlace.run_register_eq_ok.mp done)
  have entries := before.castEntry_register accepts
  have casts : ∀ family type base, (⟨r.entry spec :: r.entries⟩ : Registry).castClass family type
      base = if r.Redirects spec family type base then .ok (r.entry spec).cls
        else r.castClass family type base := by
    intro family type base
    unfold castClass
    rw [entries, apply_ite (Entry.cls <$> ·)]
    rfl
  refine ⟨casts, ?_, ?_, after.castAxis_eq_ok⟩
  · intro custom family type base other
    have stays : ¬ r.Redirects spec family type base := fun ⟨_, _, goes⟩ =>
      goes.elim (fun same => other same.symm) (fun main => custom main.1)
    rw [casts, if_neg stays]
  · intro family a
    rw [after.castAxis_eq, before.castAxis_eq, entries, apply_ite (_ <$> ·)]
    rfl

/-- A class of the main family that takes a type over and labels the axes. -/
def labelled : ClassSpec :=
  ⟨"Labelled", .main, .axis, [.axis .integerNone], some "Integer",
    some fun a => { a with label := some "converted" }⟩

def withLabelled : Registry := ⟨builtin.entry labelled :: builtin.entries⟩

theorem run_register_labelled : (InPlace.register labelled).run builtin =
    .ok (builtin.entry labelled).cls withLabelled :=
  InPlace.run_register_eq_ok.mpr (register_eq_ok.mpr
    ⟨⟨by decide, by decide, by decide +kernel, by decide +kernel⟩, rfl, rfl⟩)

theorem redirected_withLabelled :
    Registered [] builtin ∧
    (InPlace.register labelled).run builtin =
      .ok (builtin.entry labelled).cls withLabelled ∧
    Redirected builtin labelled (builtin.entry labelled).cls withLabelled :=
  ⟨.builtin, run_register_labelled, Registered.builtin.redirected run_register_labelled⟩

end Binning.Registry
