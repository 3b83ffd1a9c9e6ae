import Binning.ClassedAxis
import Binning.Proofs.Keywords
import Binning.Proofs.Results

/-! Axes by keywords and by settings. Keywords are taken one by one, and what is left over
is refused; settings are a record that is read as a whole. Keywords that are not refused
make what the settings make that they spell out. -/
namespace Binning
open Results

theorem Options.contains_ite_insert (o : Options) (added flag : Flag) (on : Bool) :
    (if on then o.insert added else o).contains flag = true ↔
      o.contains flag = true ∨ flag = added ∧ on = true := by
  cases on with
  | false => simp only [Bool.false_eq_true, if_false, and_false, or_false]
  | true =>
    simp only [if_true, and_true, insert, contains_set]
    split <;> simp_all

namespace Keywords
variable {k : Keywords} {name raw : String} {names : List String}

/-! ### Booleans -/

def spellings : Bool → List String
  | true => ["true", "True", "1"]
  | false => ["false", "False", "0"]

/-- The values that are given for the names are booleans. -/
def Reads (k : Keywords) (names : List String) : Prop :=
  ∀ name ∈ names, ∀ raw, k.get? name = some raw → ∃ on, raw ∈ spellings on

/-- The boolean that is given for a name, or else the default. -/
def on (k : Keywords) (name : String) (default : Bool) : Bool :=
  match k.get? name with
  | some raw => decide (raw ∈ spellings true)
  | none => default

theorem parseBool_eq_ok {on : Bool} (spelt : raw ∈ spellings on) : parseBool name raw = .ok on := by
  cases on with
  | true =>
    have yes : raw = "true" ∨ raw = "True" ∨ raw = "1" := by simpa [spellings] using spelt
    rw [parseBool, if_pos yes]
    rfl
  | false =>
    have no : raw = "false" ∨ raw = "False" ∨ raw = "0" := by simpa [spellings] using spelt
    have not_yes : ¬ (raw = "true" ∨ raw = "True" ∨ raw = "1") := by
      rcases no with rfl | rfl | rfl <;> decide
    rw [parseBool, if_neg not_yes, if_pos no]
    rfl

theorem parseBool_eq_error (unread : ∀ on, raw ∉ spellings on) :
    parseBool name raw = .error (.keywordValue name raw) := by
  have not_yes : ¬ (raw = "true" ∨ raw = "True" ∨ raw = "1") := by
    simpa [spellings] using unread true
  have not_no : ¬ (raw = "false" ∨ raw = "False" ∨ raw = "0") := by
    simpa [spellings] using unread false
  rw [parseBool, if_neg not_yes, if_neg not_no]
  rfl

theorem decide_mem_spellings {on : Bool} (spelt : raw ∈ spellings on) :
    decide (raw ∈ spellings true) = on := by
  cases on with
  | true => exact decide_eq_true spelt
  | false =>
    simp only [spellings, List.mem_cons, List.not_mem_nil, or_false] at spelt
    rcases spelt with rfl | rfl | rfl <;> rfl

theorem elim_parseBool (default : Bool)
    (reads : ∀ raw, k.get? name = some raw → ∃ on, raw ∈ spellings on) :
    (k.get? name).elim (.ok default) (parseBool name) = .ok (k.on name default) := by
  unfold on
  cases given : k.get? name with
  | none => rfl
  | some raw =>
    obtain ⟨on, spelt⟩ := reads raw given
    simp only [Option.elim_some, parseBool_eq_ok spelt, decide_mem_spellings spelt]

/-! ### Taking flags -/

def eraseAll (k : Keywords) (names : List String) : Keywords := names.foldl erase k

theorem get?_eraseAll (k : Keywords) (names : List String) (name : String) :
    (k.eraseAll names).get? name = if name ∈ names then none else k.get? name := by
  induction names generalizing k with
  | nil => simp [eraseAll]
  | cons first rest ih =>
    change ((k.erase first).eraseAll rest).get? name = _
    rw [ih, get?_erase]
    simp only [List.mem_cons]
    split <;> simp_all

theorem Reads.erase (reads : k.Reads names) (other : String) : (k.erase other).Reads names := by
  intro name among raw given
  rw [get?_erase] at given
  split at given
  · contradiction
  · exact reads name among raw given

theorem on_erase {other : String} (different : name ≠ other) (default : Bool) :
    (k.erase other).on name default = k.on name default := by
  unfold on
  rw [get?_erase, if_neg different]

theorem takeFlags_eq_ok {declared : List (Flag × Bool)}
    (distinct : (declared.map (·.1.name)).Nodup) (reads : k.Reads (declared.map (·.1.name)))
    (start : Options) :
    ∃ options, takeFlags declared start k = (.ok options, k.eraseAll (declared.map (·.1.name))) ∧
      ∀ flag, options.contains flag = true ↔ start.contains flag = true ∨
        ∃ default, (flag, default) ∈ declared ∧ k.on flag.name default = true := by
  -- names differ, so taking one leaves the values of those to come
  induction declared generalizing start k with
  | nil =>
    refine ⟨start, rfl, fun flag => ?_⟩
    simp only [List.not_mem_nil, false_and, exists_false, or_false]
  | cons d rest ih =>
    obtain ⟨first, default⟩ := d
    obtain ⟨apart, distinct⟩ := List.nodup_cons.mp distinct
    obtain ⟨read, others⟩ := List.forall_mem_cons.mp reads
    obtain ⟨options, taken, contains⟩ := ih distinct (Reads.erase others first.name)
      (if k.on first.name default then start.insert first else start)
    refine ⟨options, ?_, fun flag => ?_⟩
    · simp only [takeFlags, take, elim_parseBool default read]
      exact taken
    have later : ∀ default, (flag, default) ∈ rest →
        (k.erase first.name).on flag.name default = k.on flag.name default := by
      intro default among
      exact on_erase (fun same => apart (List.mem_map.mpr ⟨_, among, same⟩)) default
    rw [contains, Options.contains_ite_insert, or_assoc]
    refine or_congr_right ?_
    constructor
    · rintro (⟨rfl, on⟩ | ⟨other, among, on⟩)
      · exact ⟨default, List.mem_cons_self, on⟩
      · exact ⟨other, List.mem_cons_of_mem _ among, later other among ▸ on⟩
    · rintro ⟨other, among, on⟩
      rcases List.mem_cons.mp among with same | among
      · cases same
        exact .inl ⟨rfl, on⟩
      · exact .inr ⟨other, among, (later other among).symm ▸ on⟩

theorem takeFlags_eq_error {before after : List (Flag × Bool)} {flag : Flag} {default : Bool}
    (distinct : ((before ++ (flag, default) :: after).map (·.1.name)).Nodup)
    (reads : k.Reads (before.map (·.1.name))) (given : k.get? flag.name = some raw)
    (unread : ∀ on, raw ∉ spellings on) (start : Options) :
    (takeFlags (before ++ (flag, default) :: after) start k).1 =
      .error (.keywordValue flag.name raw) := by
  induction before generalizing start k with
  | nil =>
    simp only [List.nil_append, takeFlags, take, given, Option.elim_some, parseBool_eq_error unread]
  | cons d rest ih =>
    obtain ⟨first, others⟩ := List.forall_mem_cons.mp reads
    obtain ⟨apart, distinct⟩ := List.nodup_cons.mp distinct
    simp only [List.cons_append, takeFlags, take, elim_parseBool d.2 first]
    refine ih distinct (Reads.erase others d.1.name) ?_ _
    have among : (flag, default) ∈ rest ++ (flag, default) :: after :=
      List.mem_append_right rest List.mem_cons_self
    rw [get?_erase, if_neg fun same => apart (List.mem_map.mpr ⟨_, among, same⟩), given]

/-! ### Settings -/

theorem name_ne_metadata (flag : Flag) : flag.name ≠ "metadata" := by
  cases flag <;> decide

/-- The keywords that are none of the names and no label. -/
def strangers (k : Keywords) (names : List String) : List String :=
  (((k.eraseAll names).erase "metadata").entries.map (·.1))

theorem mem_strangers : name ∈ k.strangers names ↔
    (k.get? name).isSome ∧ name ∉ "metadata" :: names := by
  rw [strangers, ← isSome_get?_iff, get?_erase, get?_eraseAll, List.mem_cons]
  split
  · simp_all
  split <;> simp_all

theorem toSettings_eq {declared : List (Flag × Bool)}
    (distinct : (declared.map (·.1.name)).Nodup) (reads : k.Reads (declared.map (·.1.name))) :
    ∃ options, (∀ flag, options.contains flag = true ↔
        ∃ default, (flag, default) ∈ declared ∧ k.on flag.name default = true) ∧
      toSettings declared k =
        if k.strangers (declared.map (·.1.name)) = [] then .ok ⟨options, k.get? "metadata"⟩
        else .error (.keywordsLeft (k.strangers (declared.map (·.1.name)))) := by
  obtain ⟨options, taken, contains⟩ := takeFlags_eq_ok distinct reads .none
  refine ⟨options, fun flag => ?_, ?_⟩
  · rw [contains]
    cases flag <;> simp [Options.none, Options.contains]
  have label : (k.eraseAll (declared.map (·.1.name))).get? "metadata" = k.get? "metadata" := by
    rw [get?_eraseAll, if_neg]
    rintro flag
    obtain ⟨d, _, same⟩ := List.mem_map.mp flag
    exact name_ne_metadata d.1 same
  simp only [toSettings, taken, take, label, finish, List.isEmpty_iff, strangers, List.map_eq_nil_iff]
  split <;> rfl

theorem toSettings_eq_error {before after : List (Flag × Bool)} {flag : Flag} {default : Bool}
    (distinct : ((before ++ (flag, default) :: after).map (·.1.name)).Nodup)
    (reads : k.Reads (before.map (·.1.name))) (given : k.get? flag.name = some raw)
    (unread : ∀ on, raw ∉ spellings on) :
    toSettings (before ++ (flag, default) :: after) k = .error (.keywordValue flag.name raw) := by
  have failed := takeFlags_eq_error distinct reads given unread .none
  unfold toSettings
  generalize takeFlags (before ++ (flag, default) :: after) .none k = taken at failed ⊢
  obtain ⟨_, left⟩ := taken
  obtain rfl : _ = _ := failed
  rfl

/-- The settings that the keywords spell out; what is not given is as in the settings of
which nothing is said. -/
def settings (k : Keywords) : Settings :=
  let usual : Settings := {}
  { options :=
      { underflow := k.on "underflow" usual.options.underflow
        overflow := k.on "overflow" usual.options.overflow
        circular := k.on "circular" usual.options.circular
        growth := k.on "growth" usual.options.growth }
    label := k.get? "metadata" }

end Keywords

namespace Blueprint
open Keywords
variable {b : Blueprint} {k : Keywords}

/-- The flags of an axis, by their names. -/
def flagNames : Blueprint → List String
  | .category _ => ["growth"]
  | _ => ["underflow", "overflow", "growth", "circular"]

theorem map_name_declaredFlags (b : Blueprint) :
    b.declaredFlags.map (·.1.name) = b.flagNames := by
  cases b <;> rfl

theorem nodup_flagNames (b : Blueprint) : b.flagNames.Nodup := by
  cases b <;> simp only [flagNames] <;> decide

/-- The keywords are those of the axis, with booleans for its flags. -/
structure Accepts (b : Blueprint) (k : Keywords) : Prop where
  known : ∀ name, (k.get? name).isSome → name ∈ "metadata" :: b.flagNames
  booleans : k.Reads b.flagNames

/-- Why keywords are refused: for the first flag whose value is no boolean, or else for
all that are not known. -/
inductive Refuses (b : Blueprint) (k : Keywords) : ConfigError → Prop
  | value {before after : List String} {name raw : String} :
    b.flagNames = before ++ name :: after → k.Reads before → k.get? name = some raw →
    (∀ on, raw ∉ spellings on) → Refuses b k (.keywordValue name raw)
  | left {names : List String} : k.Reads b.flagNames → names ≠ [] →
    (∀ name, name ∈ names ↔ (k.get? name).isSome ∧ name ∉ "metadata" :: b.flagNames) →
    Refuses b k (.keywordsLeft names)

/-- The flags that were taken are the part of the settings that the law reads: what a law
does not declare is not among accepted keywords. -/
theorem Accepts.eq_requested (accepts : b.Accepts k) {options : Options}
    (contains : ∀ flag, options.contains flag = true ↔
      ∃ default, (flag, default) ∈ b.declaredFlags ∧ k.on flag.name default = true) :
    options = b.requested k.settings := by
  refine Options.ext_contains fun flag => ?_
  rw [Bool.eq_iff_iff, contains]
  cases b with
  | category labels =>
    have circular : k.on "circular" false = false := by
      unfold Keywords.on
      cases given : k.get? "circular" with
      | none => rfl
      | some raw =>
        have known := accepts.known "circular" (Option.isSome_of_eq_some given)
        simp [flagNames] at known
    cases flag <;>
      simp [declaredFlags, requested, settings, Options.contains, Options.flow, Flag.name, circular]
  | regular | edges | integer =>
    cases flag <;>
      simp [declaredFlags, requested, settings, Options.contains, Options.flow, Flag.name]

theorem Accepts.toSettings (accepts : b.Accepts k) :
    k.toSettings b.declaredFlags = .ok ⟨b.requested k.settings, k.settings.label⟩ := by
  have names := b.map_name_declaredFlags
  obtain ⟨options, contains, read⟩ := toSettings_eq (names ▸ b.nodup_flagNames)
    (names ▸ accepts.booleans)
  have nothing : k.strangers b.flagNames = [] := by
    refine List.eq_nil_iff_forall_not_mem.mpr fun name among => ?_
    obtain ⟨given, unknown⟩ := mem_strangers.mp among
    exact unknown (accepts.known name given)
  rw [read, names, if_pos nothing, accepts.eq_requested contains]
  rfl

/-- A list of names is read up to the first whose value is no boolean. -/
theorem reads_or_exists_first (k : Keywords) (names : List String) :
    k.Reads names ∨ ∃ before name after raw, names = before ++ name :: after ∧ k.Reads before ∧
      k.get? name = some raw ∧ ∀ on, raw ∉ spellings on := by
  induction names with
  | nil => exact .inl fun _ none => absurd none List.not_mem_nil
  | cons first rest ih =>
    by_cases read : ∀ raw, k.get? first = some raw → ∃ on, raw ∈ spellings on
    · refine ih.imp (fun others => List.forall_mem_cons.mpr ⟨read, others⟩) ?_
      rintro ⟨before, name, after, raw, rfl, others, given, unread⟩
      exact ⟨first :: before, name, after, raw, rfl, List.forall_mem_cons.mpr ⟨read, others⟩, given,
        unread⟩
    · push Not at read
      obtain ⟨raw, given, unread⟩ := read
      exact .inr ⟨[], first, rest, raw, rfl, fun _ none => absurd none List.not_mem_nil, given,
        unread⟩

theorem exists_refuses (rejected : ¬ b.Accepts k) :
    ∃ cause, b.Refuses k cause ∧ k.toSettings b.declaredFlags = .error cause := by
  have names := b.map_name_declaredFlags
  rcases reads_or_exists_first k b.flagNames with reads | ⟨before, name, after, raw, split, reads,
    given, unread⟩
  · obtain ⟨_, _, read⟩ := toSettings_eq (names ▸ b.nodup_flagNames) (names ▸ reads)
    have something : k.strangers b.flagNames ≠ [] := by
      intro nothing
      refine rejected ⟨fun name given => ?_, reads⟩
      by_contra unknown
      exact absurd (mem_strangers.mpr ⟨given, unknown⟩) (nothing ▸ List.not_mem_nil)
    refine ⟨_, .left reads something fun name => mem_strangers, ?_⟩
    rw [read, names, if_neg something]
  · refine ⟨_, .value split reads given unread, ?_⟩
    have distinct := b.nodup_flagNames
    rw [← names] at split distinct
    obtain ⟨first, later, listed, rfl, rest⟩ := List.map_eq_append_iff.mp split
    obtain ⟨d, others, rfl, rfl, rfl⟩ := List.map_eq_cons_iff.mp rest
    rw [listed] at distinct ⊢
    exact toSettings_eq_error distinct reads given unread

end Blueprint

namespace ClassedAxis

/-- Keywords that an axis accepts make what the settings make that they spell out, be it an
axis or an error. All others are refused for the first flag whose value is no boolean, or
for what is left. -/
theorem ofKeywords_eq_make (r : Registry) (b : Blueprint) (k : Keywords) :
    (b.Accepts k → ofKeywords r b k = make r b k.settings) ∧
      (¬ b.Accepts k → ∃ cause, b.Refuses k cause ∧ ofKeywords r b k = .error (.config cause)) := by
  constructor
  · intro accepts
    rw [ofKeywords, accepts.toSettings]
    rfl
  · intro rejected
    obtain ⟨cause, refuses, failed⟩ := Blueprint.exists_refuses rejected
    refine ⟨cause, refuses, ?_⟩
    rw [ofKeywords, failed]
    rfl

end ClassedAxis
end Binning
