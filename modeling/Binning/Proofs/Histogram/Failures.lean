import Binning.Histogram.InPlace
import Binning.Histogram.Read
import Binning.Proofs.Histogram.Reachable

/-! Failures. An operation in place leaves what the operation on values says, so
one that fails leaves the histogram as it was; a run of entries stops at the first
that is refused and keeps those before it. -/
namespace Binning
open Results

/-- Only whole counts refuse to be scaled. -/
theorem Bins.scale_eq_error {b : Bins} {factor : Float} {e : CapabilityError} :
    b.scale factor = .error e ↔ b.kind.isIntegral = true ∧ e = .scaling b.kind := by
  cases b with
  | int | atomicInt =>
    constructor
    · rintro ⟨⟩
      exact ⟨rfl, rfl⟩
    · rintro ⟨_, rfl⟩
      rfl
  | double | unlimited | weight | mean | weightedMean =>
    constructor
    · rintro ⟨⟩
    · rintro ⟨⟨⟩, _⟩

namespace Histogram

variable {r : Registry} {h : Histogram}

/-- The histogram with room for a placed entry. -/
def roomFor (r : Registry) (h : Histogram) (placements : List Axis.Placement) :
    Except Error Histogram :=
  if placements.any (·.grown.isSome) then h.grow r placements else .ok h

theorem record_eq_bind (coords : List Coord) (weight sample : Option Float) :
    h.record r coords weight sample = (do
      (h.storage.kind.checkEntry weight sample).mapError .capability
      let placements ← (h.locate coords).mapError .index
      let grown ← h.roomFor r placements
      return { grown with bins := grown.enter placements weight sample }) := by
  unfold record roomFor enter
  refine bind_congr fun _ => bind_congr fun placements => ?_
  by_cases growing : placements.any (·.grown.isSome) = true
  · simp only [growing, if_true]
    refine bind_congr fun grown => ?_
    cases grown.position? placements <;> rfl
  · simp only [if_neg growing, pure_bind]
    change _ = Except.ok _
    cases h.position? placements <;> rfl

/-- Nothing makes room where no axis grows. -/
theorem roomFor_of_fixed (fixed : ∀ a ∈ h.axes, a.axis.options.growth = false)
    {coords : List Coord} {placements : List Axis.Placement}
    (located : h.locate coords = .ok placements) : h.roomFor r placements = .ok h := by
  rw [roomFor, if_neg]
  rw [List.any_eq_true]
  rintro ⟨p, among, grows⟩
  obtain ⟨a, axis, c, placed⟩ := exists_located located among
  obtain ⟨classed, listed, rfl⟩ := mem_bareAxes.mp axis
  obtain ⟨new, grown⟩ := Option.isSome_iff_exists.mp grows
  have growing := Axis.growth_of_locate placed grown
  rw [fixed classed listed] at growing
  contradiction

namespace InPlace

theorem run_get_bind {α : Type} (f : Histogram → InPlace α) (h : Histogram) :
    (get >>= f : InPlace α).run h = (f h).run h := rfl

theorem run_check_bind {ε α β : Type} (kind : ε → Error) (x : Except ε α) (f : α → InPlace β)
    (h : Histogram) : (check kind x >>= f).run h =
      match x with
      | .ok a => (f a).run h
      | .error e => .error (kind e) h := by
  cases x <;> rfl

theorem toResult_ofExcept (h : Histogram) (done : Except Error Histogram) :
    (Outcome.ofExcept h done).toResult =
      match done with
      | .ok changed => .ok () changed
      | .error e => .error e h := by
  cases done <;> rfl

theorem run_grow_bind (placements : List Axis.Placement) (f : Unit → InPlace Unit) :
    (InPlace.grow r placements >>= f).run h =
      match h.grow r placements with
      | .ok grown => (f ()).run grown
      | .error e => .error e h := by
  unfold InPlace.grow Histogram.grow
  rw [bind_assoc, run_get_bind, bind_assoc, run_check_bind]
  generalize (List.mapM _ (h.axes.zip placements) : Except Error (List (_ × Route))) = grown
  cases grown <;> rfl

/-- The last step of an entry. -/
theorem run_enter (placements : List Axis.Placement) (weight sample : Option Float) :
    (do
      let h ← get
      if let some j := h.position? placements then
        writeBins (h.bins.record j weight sample) : InPlace Unit).run h =
      .ok () { h with bins := h.enter placements weight sample } := by
  unfold enter
  rw [run_get_bind]
  cases h.position? placements <;> rfl

theorem run_fill (coords : List Coord) (weight sample : Option Float) :
    (InPlace.fill r coords weight sample).run h = (h.fill r coords weight sample).toResult := by
  unfold InPlace.fill Histogram.fill
  rw [run_get_bind, run_check_bind, toResult_ofExcept, record_eq_bind]
  cases h.storage.kind.checkEntry weight sample with
  | error => rfl
  | ok =>
  simp only [run_check_bind]
  cases located : h.locate coords with
  | error => rfl
  | ok placements =>
  simp only [Except.mapError, bind, Except.bind, roomFor]
  split
  · change (InPlace.grow r placements >>= _).run h = _
    rw [run_grow_bind]
    cases grows : h.grow r placements with
    | error e => rfl
    | ok grown => exact run_enter placements weight sample
  · exact run_enter placements weight sample

theorem run_fillAll_cons (coords : List Coord) (rest : List (List Coord)) :
    (InPlace.fillAll r (coords :: rest)).run h =
      match (InPlace.fill r coords).run h with
      | .ok _ next => (InPlace.fillAll r rest).run next
      | .error e changed => .error e changed := by
  change (InPlace.fill r coords >>= fun _ => InPlace.fillAll r rest).run h = _
  rw [run_bind]
  cases (InPlace.fill r coords).run h <;> rfl

theorem run_fillAll (samples : List (List Coord)) :
    (InPlace.fillAll r samples).run h = (h.fillAll r samples).toResult := by
  induction samples generalizing h with
  | nil => rfl
  | cons coords rest ih =>
    rw [run_fillAll_cons, run_fill, Histogram.fill, toResult_ofExcept]
    cases done : h.record r coords with
    | error =>
      rw [fillAll_of_error done]
      rfl
    | ok changed =>
      rw [fillAll_of_ok done]
      exact ih

theorem run_fillValues (values : List Coord) :
    (InPlace.fillValues r values).run h = (h.fillValues r values).toResult := by
  unfold InPlace.fillValues Histogram.fillValues
  rw [run_get_bind]
  by_cases other : h.rank ≠ 1
  · simp only [if_pos other]
    rfl
  · simp only [if_neg other]
    exact run_fillAll _

theorem run_fillShared (coords : List Coord) :
    (InPlace.fillShared coords).run h = (h.fillShared coords).toResult := by
  unfold InPlace.fillShared Histogram.fillShared recordShared
  rw [run_get_bind, toResult_ofExcept]
  cases h.axes.find? (·.axis.options.growth) with
  | some => rfl
  | none =>
  by_cases other : h.storage.kind ≠ .atomicInt
  · simp only [if_pos other]
    rfl
  simp only [if_neg other, run_check_bind]
  cases h.locate coords with
  | error => rfl
  | ok placements =>
  cases position : h.position? placements with
  | none =>
    simp only [Except.mapError, bind, Except.bind, position]
    rfl
  | some j =>
    simp only [Except.mapError, bind, Except.bind, position]
    cases h.bins.recordShared j <;> rfl

theorem run_scale (factor : Float) :
    (InPlace.scale factor).run h = (h.scale factor).toResult := by
  unfold InPlace.scale Histogram.scale
  rw [run_get_bind, run_check_bind, toResult_ofExcept]
  cases h.bins.scale factor <;> rfl

theorem eq_of_toResult_ofExcept {done : Except Error Histogram} {e : Error} {changed : Histogram} :
    (Outcome.ofExcept h done).toResult = .error e changed ↔ changed = h ∧ done = .error e := by
  cases done with
  | ok => simp [Outcome.ofExcept, Outcome.toResult]
  | error => simp [Outcome.ofExcept, Outcome.toResult, and_comm, eq_comm]

end InPlace

/-! ### Causes -/

/-- Why an entry is refused. -/
inductive Refuses (r : Registry) (h : Histogram) (coords : List Coord)
    (weight sample : Option Float) : Error → Prop where
  /-- The storage does not take the weight, or asks for a sample or for none. -/
  | entry {e : CapabilityError} :
      h.storage.kind.checkEntry weight sample = .error e →
        Refuses r h coords weight sample (.capability e)
  | arity :
      h.storage.kind.checkEntry weight sample = .ok () → coords.length ≠ h.rank →
        Refuses r h coords weight sample (.index (.coordinateCount coords.length h.rank))
  /-- An axis refuses its coordinate, though those before it may have agreed to grow. -/
  | axis {before after : List (Axis × Coord)} {a : Axis} {c : Coord} {e : IndexError} :
      h.storage.kind.checkEntry weight sample = .ok () → coords.length = h.rank →
        h.bareAxes.zip coords = before ++ (a, c) :: after →
        (∀ placed ∈ before, ∃ p, placed.1.locate placed.2 = .ok p) → a.locate c = .error e →
        Refuses r h coords weight sample (.index e)
  /-- An axis that has to grow cannot be cast. -/
  | cast {placements : List Axis.Placement} {before after : List (ClassedAxis × Axis.Placement)}
      {a : ClassedAxis} {p : Axis.Placement} {e : Error} :
      h.storage.kind.checkEntry weight sample = .ok () → h.locate coords = .ok placements →
        h.axes.zip placements = before ++ (a, p) :: after →
        (∀ grown ∈ before, ∃ new, growAxis r h.family grown.1 grown.2 = .ok new) →
        growAxis r h.family a p = .error e →
        Refuses r h coords weight sample e

theorem locate_eq_error {coords : List Coord} {e : IndexError} :
    h.locate coords = .error e ↔
      coords.length ≠ h.rank ∧ e = .coordinateCount coords.length h.rank ∨
        coords.length = h.rank ∧ ∃ before ac after, h.bareAxes.zip coords = before ++ ac :: after ∧
          (∀ placed ∈ before, ∃ p, placed.1.locate placed.2 = .ok p) ∧
          ac.1.locate ac.2 = .error e := by
  unfold locate
  by_cases same : coords.length = h.rank
  · simp only [same, ne_eq, not_true_eq_false, if_false, false_and, false_or, true_and]
    exact mapM_eq_error
  · simp only [same, ne_eq, not_false_eq_true, if_true, true_and, false_and, or_false]
    exact ⟨fun failed => (Except.error.inj failed).symm, fun same => same ▸ rfl⟩

theorem isSome_of_growAxis {family : Family} {a : ClassedAxis} {p : Axis.Placement} {e : Error}
    (failed : growAxis r family a p = .error e) : p.grown.isSome = true := by
  unfold growAxis at failed
  split at failed
  · rename_i grown
    rw [grown]
    rfl
  · cases failed

theorem roomFor_eq_error {placements : List Axis.Placement} {e : Error} :
    h.roomFor r placements = .error e ↔
      ∃ before ap after, h.axes.zip placements = before ++ ap :: after ∧
        (∀ grown ∈ before, ∃ new, growAxis r h.family grown.1 grown.2 = .ok new) ∧
        growAxis r h.family ap.1 ap.2 = .error e := by
  have grows : h.grow r placements = .error e ↔
      ((h.axes.zip placements).mapM fun ap => growAxis r h.family ap.1 ap.2) = .error e := by
    unfold Histogram.grow
    rw [bind_eq_error]
    simp [pure, Except.pure]
  unfold roomFor
  split
  · exact grows.trans mapM_eq_error
  · rename_i none_grows
    constructor
    · rintro ⟨⟩
    · rintro ⟨before, ap, after, split, _, failed⟩
      have among : ap ∈ h.axes.zip placements := by
        rw [split]
        exact List.mem_append_right _ List.mem_cons_self
      have listed : ap.2 ∈ placements := (List.of_mem_zip among).2
      exact absurd (List.any_eq_true.mpr ⟨ap.2, listed, isSome_of_growAxis failed⟩) none_grows

theorem record_eq_error {coords : List Coord} {weight sample : Option Float} {e : Error} :
    h.record r coords weight sample = .error e ↔ Refuses r h coords weight sample e := by
  rw [record_eq_bind]
  simp only [bind_eq_error, mapError_eq_error, mapError_eq_ok, locate_eq_error, roomFor_eq_error]
  constructor
  · rintro (⟨e, refused, rfl⟩ | ⟨_, taken, ⟨e, ⟨arity, rfl⟩ | ⟨arity, refused⟩, rfl⟩ |
      ⟨placements, located, refused | ⟨_, _, ⟨⟩⟩⟩⟩)
    · exact .entry refused
    · exact .arity taken arity
    · obtain ⟨before, _, after, split, placed, failed⟩ := refused
      exact .axis taken arity split placed failed
    · obtain ⟨before, _, after, split, grown, failed⟩ := refused
      exact .cast taken located split grown failed
  · intro refused
    cases refused with
    | entry refused => exact .inl ⟨_, refused, rfl⟩
    | arity taken arity => exact .inr ⟨(), taken, .inl ⟨_, .inl ⟨arity, rfl⟩, rfl⟩⟩
    | axis taken arity split placed failed =>
      exact .inr ⟨(), taken, .inl ⟨_, .inr ⟨arity, _, _, _, split, placed, failed⟩, rfl⟩⟩
    | cast taken located split grown failed =>
      exact .inr ⟨(), taken, .inr ⟨_, located, .inl ⟨_, _, _, split, grown, failed⟩⟩⟩

/-! ### Runs -/

/-- The entries are recorded one after the other, none of them refused. -/
inductive Accepts (r : Registry) : Histogram → List (List Coord) → Histogram → Prop where
  | nil {h : Histogram} : Accepts r h [] h
  | cons {h next last : Histogram} {coords : List Coord} {rest : List (List Coord)} :
      (InPlace.fill r coords).run h = .ok () next → Accepts r next rest last →
        Accepts r h (coords :: rest) last

/-- The entries are recorded up to the first that is refused. -/
structure Stops (r : Registry) (h : Histogram) (samples : List (List Coord))
    (left : EStateM.Result Error Histogram Unit) : Prop where
  ok : ∀ last, left = .ok () last ↔ Accepts r h samples last
  error : ∀ e last, left = .error e last ↔ ∃ before coords after,
    samples = before ++ coords :: after ∧ Accepts r h before last ∧
      (InPlace.fill r coords).run last = .error e last

namespace InPlace

theorem run_fill_eq_error {coords : List Coord} {weight sample : Option Float} {e : Error}
    {changed : Histogram} :
    (InPlace.fill r coords weight sample).run h = .error e changed ↔
      changed = h ∧ Refuses r h coords weight sample e := by
  rw [run_fill, Histogram.fill, eq_of_toResult_ofExcept, record_eq_error]

theorem stops_fillAll (samples : List (List Coord)) :
    Stops r h samples ((InPlace.fillAll r samples).run h) := by
  induction samples generalizing h with
  | nil =>
    refine ⟨fun last => ⟨?_, ?_⟩, fun e last => ⟨?_, ?_⟩⟩
    · rintro ⟨⟩
      exact .nil
    · rintro ⟨⟩
      rfl
    · rintro ⟨⟩
    · rintro ⟨before, _, _, split, _⟩
      cases before <;> cases split
  | cons coords rest ih =>
    rw [run_fillAll_cons]
    cases entered : (InPlace.fill r coords).run h with
    | ok _ next =>
      refine ⟨fun last => ((ih (h := next)).ok last).trans ⟨?_, ?_⟩,
        fun e last => ((ih (h := next)).error e last).trans ⟨?_, ?_⟩⟩
      · intro accepted
        exact .cons entered accepted
      · rintro (_ | ⟨first, accepted⟩)
        cases entered.symm.trans first
        exact accepted
      · rintro ⟨before, last_coords, after, rfl, accepted, failed⟩
        exact ⟨coords :: before, last_coords, after, rfl, .cons entered accepted, failed⟩
      · rintro ⟨before, last_coords, after, split, accepted, failed⟩
        cases accepted with
        | nil =>
          cases split
          cases entered.symm.trans failed
        | cons first accepted =>
          cases split
          cases entered.symm.trans first
          exact ⟨_, _, _, rfl, accepted, failed⟩
    | error e changed =>
      have unchanged : changed = h := (run_fill_eq_error.mp entered).1
      refine ⟨fun last => ⟨?_, ?_⟩, fun _ last => ⟨?_, ?_⟩⟩
      · rintro ⟨⟩
      · rintro (_ | ⟨first, _⟩)
        cases entered.symm.trans first
      · rintro ⟨⟩
        subst unchanged
        exact ⟨[], coords, rest, rfl, .nil, entered⟩
      · rintro ⟨before, last_coords, after, split, accepted, failed⟩
        cases accepted with
        | nil =>
          cases split
          exact entered.symm.trans failed
        | cons first accepted =>
          cases split
          cases entered.symm.trans first

theorem run_scale_eq_error {factor : Float} {e : Error} {changed : Histogram} :
    (InPlace.scale factor).run h = .error e changed ↔
      changed = h ∧ h.bins.kind.isIntegral = true ∧ e = .capability (.scaling h.bins.kind) := by
  rw [run_scale, Histogram.scale, eq_of_toResult_ofExcept]
  refine and_congr_right fun _ => ?_
  simp only [bind_eq_error, mapError_eq_error, Bins.scale_eq_error]
  constructor
  · rintro (⟨_, ⟨integral, rfl⟩, rfl⟩ | ⟨_, _, ⟨⟩⟩)
    exact ⟨integral, rfl⟩
  · rintro ⟨integral, rfl⟩
    exact .inl ⟨_, ⟨integral, rfl⟩, rfl⟩

theorem run_fillShared_eq_error {coords : List Coord} {e : Error} {changed : Histogram} :
    (InPlace.fillShared coords).run h = .error e changed ↔
      changed = h ∧ h.recordShared coords = .error e := by
  rw [run_fillShared, Histogram.fillShared, eq_of_toResult_ofExcept]

end InPlace

/-- A failure leaves everything as it was, but for a run of entries, which stops at the first
entry that is refused: the entries before it stay. -/
theorem unchanged_of_failure (r : Registry) (h : Histogram) :
    (∀ coords weight sample,
      (InPlace.fill r coords weight sample).run h = (h.fill r coords weight sample).toResult ∧
      ∀ e changed, (InPlace.fill r coords weight sample).run h = .error e changed ↔
        changed = h ∧ Refuses r h coords weight sample e) ∧
    (∀ coords, (InPlace.fillShared coords).run h = (h.fillShared coords).toResult ∧
      ∀ e changed, (InPlace.fillShared coords).run h = .error e changed ↔
        changed = h ∧ h.recordShared coords = .error e) ∧
    (∀ factor, (InPlace.scale factor).run h = (h.scale factor).toResult ∧
      ∀ e changed, (InPlace.scale factor).run h = .error e changed ↔
        changed = h ∧ h.bins.kind.isIntegral = true ∧ e = .capability (.scaling h.bins.kind)) ∧
    (∀ values, (InPlace.fillValues r values).run h = (h.fillValues r values).toResult ∧
      if h.rank = 1 then Stops r h (values.map ([·])) ((InPlace.fillValues r values).run h)
      else (InPlace.fillValues r values).run h =
        .error (.index (.notOneDimensional h.rank)) h) ∧
    ∀ samples, (InPlace.fillAll r samples).run h = (h.fillAll r samples).toResult ∧
      Stops r h samples ((InPlace.fillAll r samples).run h) := by
  refine ⟨fun coords weight sample => ⟨InPlace.run_fill .., fun e changed => ?_⟩,
    fun coords => ⟨InPlace.run_fillShared .., fun e changed => ?_⟩,
    fun factor => ⟨InPlace.run_scale .., fun e changed => ?_⟩,
    fun values => ⟨InPlace.run_fillValues .., ?_⟩,
    fun samples => ⟨InPlace.run_fillAll .., InPlace.stops_fillAll samples⟩⟩
  · exact InPlace.run_fill_eq_error
  · exact InPlace.run_fillShared_eq_error
  · exact InPlace.run_scale_eq_error
  · split <;> rename_i rank
    · rw [InPlace.run_fillValues, Histogram.fillValues, if_neg (not_not.mpr rank),
        ← InPlace.run_fillAll]
      exact InPlace.stops_fillAll _
    · rw [InPlace.run_fillValues, Histogram.fillValues, if_pos rank]
      rfl

/-- One axis of the integers 0 and 1 with flow bins. -/
def twoIntegers : Histogram where
  axes := [⟨⟨2, "Integer", .main⟩, .integer ⟨0, 2⟩, .flow, none⟩]
  storage := ⟨⟨4, "Int", .main⟩, .int⟩
  bins := .empty .int 4
  family := .main

/-- A run of values that fails at its second one changes a bin. -/
theorem not_unchanged_of_second_value : twoIntegers.Reachable ∧ ∃ e changed,
    (InPlace.fillValues .builtin [.int 0, .text "x"]).run twoIntegers = .error e changed ∧
      twoIntegers.contentAt [0] = .ok (.count 0) ∧ changed.contentAt [0] = .ok (.count 1) := by
  have built : Blueprint.build (.integer 0 2) .flow none = .ok ⟨.integer ⟨0, 2⟩, .flow, none⟩ := rfl
  have new : Histogram.new .builtin twoIntegers.axes .int = .ok twoIntegers := rfl
  refine ⟨?_, _, _, rfl, rfl, rfl⟩
  exact .new Registry.builtin_keepsShape (List.forall_mem_singleton.mpr (.built built)) new
    (by decide)

end Histogram
end Binning
