import Binning.Proofs.Axis.Located

/-! The labels of an axis. They are distinct and of one type, so the bin of a label
is where it is listed, and a label that is new is listed behind all others. -/
namespace Binning
open Results

namespace Category
variable {c : Category} {label : Coord}

/-- The label has the type of the labels. -/
def takes (c : Category) : Coord → Bool
  | .float _ => false
  | .int _ => !c.hasTexts
  | .text _ => c.hasTexts

theorem length_labels (c : Category) : c.labels.length = c.size := by
  cases c <;> simp [labels, size]

/-- Labels are compared by what they are, unlike numbers that are not whole. -/
theorem beq_iff_eq_of_takes (taken : c.takes label = true) (other : Coord) :
    (label == other) = true ↔ label = other := by
  cases label with
  | float => contradiction
  | int i =>
    cases other with
    | int j =>
      change (i == j) = true ↔ _
      rw [beq_iff_eq, Coord.int.injEq]
    | float | text => exact ⟨(nomatch ·), (nomatch ·)⟩
  | text s =>
    cases other with
    | text t =>
      change (s == t) = true ↔ _
      rw [beq_iff_eq, Coord.text.injEq]
    | float | int => exact ⟨(nomatch ·), (nomatch ·)⟩

theorem beq_eq_false_of_takes {other : Coord} (taken : c.takes label = true)
    (apart : c.takes other = false) : (other == label) = false := by
  cases label <;> cases other <;> first | rfl | simp_all [takes]

theorem contains_iff_mem (taken : c.takes label = true) :
    c.labels.contains label = true ↔ label ∈ c.labels := by
  simp only [List.contains_iff_exists_mem_beq, beq_iff_eq_of_takes taken, exists_eq_right']

theorem takes_of_mem (listed : label ∈ c.labels) : c.takes label = true := by
  cases c with
  | ints is =>
    obtain ⟨i, _, rfl⟩ := List.mem_map.mp listed
    rfl
  | texts ss =>
    obtain ⟨s, _, rfl⟩ := List.mem_map.mp listed
    rfl

/-! ### Lookup -/

theorem index_of_getElem? (distinct : c.labels.Nodup) {k : Nat}
    (listed : c.labels[k]? = some label) : c.index label = .ok k := by
  cases c with
  | ints is =>
    obtain ⟨i, there, rfl⟩ := List.getElem?_map.symm.trans listed |> Option.map_eq_some_iff.mp
    obtain ⟨below, rfl⟩ := List.getElem?_eq_some_iff.mp there
    have once : is.Nodup := distinct.of_map
    exact congrArg (Except.ok ∘ Nat.cast) (once.idxOf_getElem k below)
  | texts ss =>
    obtain ⟨s, there, rfl⟩ := List.getElem?_map.symm.trans listed |> Option.map_eq_some_iff.mp
    obtain ⟨below, rfl⟩ := List.getElem?_eq_some_iff.mp there
    have once : ss.Nodup := distinct.of_map
    exact congrArg (Except.ok ∘ Nat.cast) (once.idxOf_getElem k below)

theorem index_of_not_mem (taken : c.takes label = true) (new : label ∉ c.labels) :
    c.index label = .ok c.size := by
  cases c with
  | ints is =>
    cases label with
    | float | text => contradiction
    | int i =>
      have missing : i ∉ is := fun among => new (List.mem_map_of_mem among)
      exact congrArg (Except.ok ∘ Nat.cast) (List.idxOf_eq_length missing)
  | texts ss =>
    cases label with
    | float | int => contradiction
    | text s =>
      have missing : s ∉ ss := fun among => new (List.mem_map_of_mem among)
      exact congrArg (Except.ok ∘ Nat.cast) (List.idxOf_eq_length missing)

theorem grow_of_not_mem (taken : c.takes label = true) (new : label ∉ c.labels) :
    c.grow label = .ok (c.size, c.append label) := by
  rw [grow, index_of_not_mem taken new]
  change Except.ok ((c.size : Int), if (c.size : Int) < c.size then c else c.append label) = _
  rw [if_neg (Int.lt_irrefl _)]

theorem index_of_not_takes (other : c.takes label = false) :
    c.index label = .error (.labelLookup c.hasTexts label) := by
  cases c <;> cases label <;> first | contradiction | rfl

/-! ### New labels -/

theorem labels_append (taken : c.takes label = true) :
    (c.append label).labels = c.labels ++ [label] := by
  cases c <;> cases label <;> first | contradiction | exact List.map_append

@[simp] theorem hasTexts_append (c : Category) (label : Coord) :
    (c.append label).hasTexts = c.hasTexts := by
  cases c <;> cases label <;> rfl

theorem takes_eq_of_hasTexts {d : Category} (same : c.hasTexts = d.hasTexts) :
    c.takes = d.takes := by
  funext label
  cases label <;> simp [takes, same]

theorem distinct_append (distinct : c.labels.Nodup) (taken : c.takes label = true)
    (new : label ∉ c.labels) : (c.append label).labels.Nodup := by
  rw [labels_append taken, List.nodup_append]
  refine ⟨distinct, List.nodup_singleton label, ?_⟩
  rintro known among _ last rfl
  exact new (List.mem_singleton.mp last ▸ among)

/-- The coordinate is a label of the type of the labels that is not among them. -/
def fresh (c : Category) (label : Coord) : Bool := c.takes label && !c.labels.contains label

/-- The labels once a coordinate has been looked up. -/
def learn (c : Category) (label : Coord) : Category :=
  if c.fresh label then c.append label else c

/-- The labels among the coordinates that are new, in order of first appearance. -/
def newcomers (c : Category) (coords : List Coord) : List Coord :=
  (coords.filter c.fresh).eraseDups

theorem fresh_iff : c.fresh label = true ↔ c.takes label = true ∧ label ∉ c.labels := by
  rw [fresh, Bool.and_eq_true, Bool.not_eq_true', Bool.eq_false_iff]
  exact and_congr_right fun taken => not_congr (contains_iff_mem taken)

theorem learn_of_mem (listed : label ∈ c.labels) : c.learn label = c :=
  if_neg fun fresh => (fresh_iff.mp fresh).2 listed

theorem learn_of_not_mem (taken : c.takes label = true) (new : label ∉ c.labels) :
    c.learn label = c.append label :=
  if_pos (fresh_iff.mpr ⟨taken, new⟩)

theorem learn_of_not_takes (other : c.takes label = false) : c.learn label = c :=
  if_neg fun fresh => Bool.false_ne_true (other.symm.trans (fresh_iff.mp fresh).1)

@[simp] theorem hasTexts_learn (c : Category) (label : Coord) :
    (c.learn label).hasTexts = c.hasTexts := by
  unfold learn
  split
  · exact hasTexts_append ..
  · rfl

/-- A label is fresh behind another if it was fresh and is not the same. -/
theorem fresh_append (taken : c.takes label = true) (other : Coord) :
    (c.append label).fresh other = (!other == label && c.fresh other) := by
  rw [fresh, fresh, takes_eq_of_hasTexts (hasTexts_append c label), labels_append taken,
    List.contains_append, List.contains_cons, List.contains_nil, Bool.or_false, Bool.not_or,
    ← Bool.and_assoc, Bool.and_comm]

theorem newcomers_cons (c : Category) (label : Coord) (coords : List Coord) :
    c.labels ++ c.newcomers (label :: coords) =
      (c.learn label).labels ++ (c.learn label).newcomers coords := by
  unfold newcomers learn
  split
  · rename_i fresh
    have taken := (fresh_iff.mp fresh).1
    rw [List.filter_cons_of_pos fresh, List.eraseDups_cons, List.filter_filter,
      labels_append taken, List.append_assoc, List.singleton_append,
      funext (fresh_append taken)]
  · rename_i known
    rw [List.filter_cons_of_neg known]

/-- What is learnt from a run of labels comes in order of first appearance. -/
theorem labels_foldl_learn (c : Category) (coords : List Coord) :
    (coords.foldl learn c).labels = c.labels ++ c.newcomers coords := by
  induction coords generalizing c with
  | nil => exact (List.append_nil _).symm
  | cons label coords ih => rw [List.foldl_cons, ih, newcomers_cons]

@[simp] theorem hasTexts_foldl_learn (c : Category) (coords : List Coord) :
    (coords.foldl learn c).hasTexts = c.hasTexts := by
  induction coords generalizing c with
  | nil => rfl
  | cons label coords ih => rw [List.foldl_cons, ih, hasTexts_learn]

theorem labels_slice (c : Category) (lo hi : Nat) :
    (c.slice lo hi).labels = (c.labels.take hi).drop lo := by
  cases c <;> simp [slice, labels, List.map_drop, List.map_take]

theorem distinct_of_new {labels : List Coord} (made : Category.new labels = .ok c) :
    c.labels.Nodup := by
  simp only [Category.new, guard_eq_ok] at made
  obtain ⟨_, made⟩ := made
  split at made
  · rw [ite_throw_eq_ok, pure_eq_ok] at made
    obtain ⟨once, rfl⟩ := made
    exact once.map fun i j same => Coord.int.inj same
  · rw [ite_throw_eq_ok, pure_eq_ok] at made
    obtain ⟨once, rfl⟩ := made
    exact once.map fun s t same => Coord.text.inj same
  · simp only [throw_eq_ok] at made

theorem distinct_of_grow {grown : Category} {i : Int} (distinct : c.labels.Nodup)
    (grows : c.grow label = .ok (i, grown)) : grown.labels.Nodup := by
  simp only [Category.grow, bind_eq_ok, pure_eq_ok] at grows
  obtain ⟨j, found, same⟩ := grows
  cases same
  split
  · exact distinct
  · rename_i beyond
    have taken : c.takes label = true := by
      rw [← Bool.not_eq_false]
      intro other
      rw [index_of_not_takes other] at found
      contradiction
    refine distinct_append distinct taken fun listed => beyond ?_
    obtain ⟨k, below, there⟩ := List.getElem_of_mem listed
    have lookup := index_of_getElem? distinct (List.getElem?_eq_some_iff.mpr ⟨below, there⟩)
    cases found.symm.trans lookup
    rw [length_labels] at below
    exact_mod_cast below

end Category

/-! ### Axes -/

namespace Axis
variable {a : Axis} {c : Category}

theorem size_of_labels (law : a.law = .category c) : a.size = c.size := by
  rw [size, law]

theorem labels_of_slice {new : Axis} {lo hi merge : Nat} (cut : a.slice lo hi merge = .ok new)
    (law : new.law = .category c) : ∃ d, a.law = .category d ∧ c = d.slice lo hi := by
  simp only [slice, guard_eq_ok, bind_eq_ok, pure_eq_ok] at cut
  obtain ⟨_, cut_law, cut, rfl⟩ := cut
  obtain ⟨old, options, label⟩ := a
  cases law
  unfold sliceLaw at cut
  cases old with
  | regular r =>
    simp only at cut
    split at cut
    · rw [throw_ite_eq_ok, pure_eq_ok] at cut
      cases cut.2
    · split at cut
      · cases cut
      · obtain ⟨_, _, same⟩ := map_eq_ok.mp cut
        cases same
  | edges e => cases cut
  | integer r =>
    rw [throw_ite_eq_ok, pure_eq_ok] at cut
    cases cut.2
  | category d =>
    rw [throw_ite_eq_ok, pure_eq_ok] at cut
    cases cut.2
    exact ⟨d, rfl, rfl⟩

theorem labels_of_grow {new : Axis} {label : Coord} {index : Int} {front : Nat}
    (grown : a.grow label = .ok (index, front, new)) (law : new.law = .category c) :
    ∃ d, a.law = .category d ∧ d.grow label = .ok (index, c) := by
  obtain ⟨old, options, title⟩ := a
  cases old with
  | edges e =>
    simp only [Axis.grow, bind_eq_ok, pure_eq_ok] at grown
    obtain ⟨_, _, same⟩ := grown
    cases same
    cases law
  | regular r | integer r =>
    simp only [Axis.grow, bind_eq_ok, pure_eq_ok] at grown
    obtain ⟨_, _, _, _, same⟩ := grown
    cases same
    cases law
  | category d =>
    simp only [Axis.grow, bind_eq_ok, pure_eq_ok] at grown
    obtain ⟨_, step, same⟩ := grown
    cases same
    cases law
    exact ⟨d, rfl, step⟩

/-- The labels of an axis are distinct. -/
theorem Made.distinct (made : a.Made) (law : a.law = .category c) : c.labels.Nodup := by
  induction made generalizing c with
  | @built b requested label a done =>
    cases b with
    | category labels =>
      simp only [Blueprint.build, bind_eq_ok, pure_eq_ok] at done
      obtain ⟨options, _, made, new, rfl⟩ := done
      cases law
      exact Category.distinct_of_new new
    | regular | edges | integer =>
      simp only [Blueprint.build, bind_eq_ok, pure_eq_ok] at done
      obtain ⟨_, _, _, _, rfl⟩ := done
      cases law
  | @cut a new lo hi merge _ done ih =>
    obtain ⟨d, parent, rfl⟩ := labels_of_slice done law
    rw [Category.labels_slice]
    exact ((ih parent).sublist (List.take_sublist ..)).sublist (List.drop_sublist ..)
  | @grown a new label p _ done grows ih =>
    obtain ⟨d, parent, step⟩ := labels_of_grow (grow_of_locate done grows) law
    exact Category.distinct_of_grow (ih parent) step
  | labelled label _ ih => exact ih law

/-- An axis of labels that grows has no flow bins. -/
theorem Made.options_of_labels (made : a.Made) (law : a.law = .category c)
    (grows : a.options.growth = true) : a.options = { growth := true } := by
  induction made generalizing c with
  | @built b requested label a done =>
    cases b with
    | category labels =>
      simp only [Blueprint.build, bind_eq_ok, pure_eq_ok] at done
      obtain ⟨options, resolved, _, _, rfl⟩ := done
      rw [Blueprint.resolveCategory, throw_ite_eq_ok, pure_eq_ok] at resolved
      obtain ⟨_, rfl⟩ := resolved
      split at grows
      · exact if_pos ‹_›
      · contradiction
    | regular | edges | integer =>
      simp only [Blueprint.build, bind_eq_ok, pure_eq_ok] at done
      obtain ⟨_, _, _, _, rfl⟩ := done
      cases law
  | cut _ done ih =>
    obtain ⟨_, _, _, _, options, _⟩ := size_of_slice done
    obtain ⟨d, parent, _⟩ := labels_of_slice done law
    rw [options] at grows ⊢
    exact ih parent grows
  | grown _ done grows' ih =>
    have step := grow_of_locate done grows'
    obtain ⟨d, parent, _⟩ := labels_of_grow step law
    rw [(regrown_of_grow step).options] at grows ⊢
    exact ih parent grows
  | labelled label _ ih => exact ih law grows

/-! ### Placing a label -/

section
variable {k : Nat} {label : Coord}

theorem locate_of_listed (fits : a.Fits) (law : a.law = .category c) (distinct : c.labels.Nodup)
    (listed : c.labels[k]? = some label) : a.locate label = .ok ⟨k, 0, none⟩ := by
  have below := (List.getElem?_eq_some_iff.mp listed).1
  have inside : a.InRange k := by
    rw [InRange, fits.beyond_eq, size_of_labels law, ← Category.length_labels]
    omega
  have found : a.index label = .ok k := by
    rw [Axis.index, law]
    exact Category.index_of_getElem? distinct listed
  rw [locate, found]
  exact if_pos inside

/-- A label that is new grows the axis by the bin behind all others. -/
theorem locate_of_new (fits : a.Fits) (law : a.law = .category c) (grows : a.options.growth = true)
    (taken : c.takes label = true) (new : label ∉ c.labels) :
    a.locate label = .ok ⟨c.size, 0, some { a with law := .category (c.append label) }⟩ := by
  have lookup := Category.index_of_not_mem taken new
  have size := size_of_labels law
  have outside : ¬ a.InRange c.size := by
    rw [InRange, fits.beyond_eq, size]
    omega
  have found : a.index label = .ok c.size := by
    rw [Axis.index, law]
    exact lookup
  have step : a.grow label = .ok (c.size, 0, { a with law := .category (c.append label) }) := by
    rw [Axis.grow, law]
    simp only [Category.grow_of_not_mem taken new]
    rfl
  have larger : ¬ Axis.size { a with law := .category (c.append label) } = a.size := by
    rw [size, size_of_labels rfl, ← Category.length_labels, Category.labels_append taken,
      List.length_append, Category.length_labels]
    exact Nat.succ_ne_self _
  rw [locate, found]
  simp only [bind, Except.bind, if_neg outside, if_pos grows, step, if_neg larger]
  rfl

theorem locate_of_other (law : a.law = .category c) (other : c.takes label = false) :
    a.locate label = .error (.labelLookup c.hasTexts label) := by
  have found : a.index label = .error (.labelLookup c.hasTexts label) := by
    rw [Axis.index, law]
    exact Category.index_of_not_takes other
  rw [locate, found]
  rfl

end

end Axis
end Binning
