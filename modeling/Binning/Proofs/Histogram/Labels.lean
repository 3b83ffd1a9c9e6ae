import Binning.Proofs.Axis.Labels
import Binning.Proofs.Histogram.Casts
import Binning.Proofs.Histogram.Conservation

/-! Counting labels. The bin of each label on a growing axis holds the number of
times that the label came, whatever grew in between, since a new label comes behind
all others and leaves them where they are. -/
namespace Binning.Histogram
open Results

variable {r : Registry} {h grown : Histogram} {c : Category} {counts : Coord → Nat}
  {label : Coord} {k : Nat}

/-! ### Places -/

/-- The only axis has labels and grows. -/
structure Lists (h : Histogram) (a : Axis) (c : Category) : Prop where
  one : h.bareAxes = [a]
  law : a.law = .category c
  grows : a.options.growth = true

namespace Lists
variable {a : Axis} (lists : h.Lists a c) (sound : h.Sound)
include lists

theorem rank_eq : h.rank = 1 := by
  have length : h.bareAxes.length = h.rank := List.length_map _
  rw [← length, lists.one]
  rfl

theorem locate_eq {p : Axis.Placement} (placed : a.locate label = .ok p) :
    h.locate [label] = .ok [p] := by
  rw [locate_eq_ok, lists.rank_eq, lists.one]
  exact ⟨rfl, .cons placed .nil⟩

theorem locate_eq_error (other : c.takes label = false) :
    h.locate [label] = .error (.labelLookup c.hasTexts label) := by
  have arity : ¬ [label].length ≠ h.rank := not_not.mpr lists.rank_eq.symm
  rw [locate, if_neg arity, lists.one]
  change (([(a, label)] : List _).mapM fun ac => ac.1.locate ac.2) = _
  rw [List.mapM_cons, Axis.locate_of_other lists.law other]
  rfl

include sound

theorem fits : a.Fits := sound.fits a (lists.one ▸ List.mem_singleton_self a)

theorem made : a.Made := sound.made_bare a (lists.one ▸ List.mem_singleton_self a)

theorem distinct : c.labels.Nodup := (lists.made sound).distinct lists.law

theorem addresses_iff {i : Int} : h.Addresses [i] ↔ 0 ≤ i ∧ i < c.labels.length := by
  have options := (lists.made sound).options_of_labels lists.law lists.grows
  rw [Addresses, lists.one, Axis.Addresses, List.forall₂_cons, and_iff_left List.Forall₂.nil,
    (lists.fits sound).representable_iff_cases, options, Axis.size_of_labels lists.law,
    Category.length_labels]
  simp

/-- A label has one place. -/
theorem listed_inj {j : Nat} {other : Coord} (there : c.labels[j]? = some other)
    (here : c.labels[k]? = some label) : j = k ↔ label = other := by
  constructor
  · rintro rfl
    exact Option.some.inj (here.symm.trans there)
  · rintro rfl
    have below := (List.getElem?_eq_some_iff.mp there).1
    exact (List.getElem?_inj below (lists.distinct sound)).mp (there.trans here.symm)

theorem addresses_of_listed (listed : c.labels[k]? = some label) : h.Addresses [(k : Int)] := by
  have below := (List.getElem?_eq_some_iff.mp listed).1
  rw [lists.addresses_iff sound]
  omega

theorem locate_of_listed (listed : c.labels[k]? = some label) :
    h.locate [label] = .ok [⟨k, 0, none⟩] :=
  lists.locate_eq
    (Axis.locate_of_listed (lists.fits sound) lists.law (lists.distinct sound) listed)

theorem locate_of_new (taken : c.takes label = true) (new : label ∉ c.labels) :
    h.locate [label] =
      .ok [⟨c.size, 0, some { a with law := .category (c.append label) }⟩] :=
  lists.locate_eq (Axis.locate_of_new (lists.fits sound) lists.law lists.grows taken new)

/-- The axis after growth lists the label behind all others, where no cell moves. -/
theorem grow (keeps : r.KeepsShape) (taken : c.takes label = true) (new : label ∉ c.labels)
    {placements : List Axis.Placement} (located : h.locate [label] = .ok placements)
    (grows : h.grow r placements = .ok grown) :
    ∃ b, grown.Lists b (c.append label) ∧
      ∀ is, h.Addresses is → carry h.bareAxes placements grown.bareAxes is = is := by
  cases located.symm.trans (lists.locate_of_new sound taken new)
  obtain ⟨routes, placed, _⟩ := grow_eq_ok located grows
  have exchanged := placed.exchanged
  obtain ⟨classed, axes, bare⟩ := List.map_eq_singleton_iff.mp lists.one
  rw [axes, List.zip_cons_cons, List.zip_nil_right, List.forall₂_cons_left_iff] at exchanged
  obtain ⟨exchange, _, cast, none, news⟩ := exchanged
  cases none
  obtain ⟨title, shape⟩ := ClassedAxis.axis_of_cast keeps cast
  have one : grown.bareAxes = [exchange.axis] := by rw [bareAxes, news, List.map_singleton]
  refine ⟨exchange.axis, ⟨one, ?_, ?_⟩, ?_⟩
  · rw [shape]
  · rw [shape]
    exact lists.grows
  · rintro is has
    rw [lists.one, one]
    have arity : is.length = 1 := has.length_eq.symm.trans (congrArg List.length lists.one)
    obtain ⟨i, rfl⟩ := List.length_eq_one_iff.mp arity
    have inside := (lists.addresses_iff sound).mp has
    have size : a.size = c.labels.length := by
      rw [Axis.size_of_labels lists.law, Category.length_labels]
    change [carryIndex a exchange.axis 0 i] = [i]
    rw [carryIndex, if_neg (by omega), if_neg (by omega)]
    exact congrArg (fun i => [i]) (Int.add_zero i)

end Lists

/-! ### One label -/

/-- The counts with one more of a label. -/
def tick (counts : Coord → Nat) (label : Coord) : Coord → Nat :=
  fun other => counts other + if label == other then 1 else 0

/-- The cells of the labels hold their counts, and what is not listed has none. -/
structure Tallies (h : Histogram) (c : Category) (counts : Coord → Nat) : Prop where
  kind : h.bins.kind = .int
  cells : ∀ (k : Nat) (label : Coord), c.labels[k]? = some label →
    h.bins.tally (h.place [(k : Int)]) = counts label
  unlisted : ∀ label, c.takes label = true → label ∉ c.labels → counts label = 0

namespace Tallies
variable {a : Axis} (tallies : h.Tallies c counts)
include tallies

theorem integral : h.bins.kind.isIntegral = true := by
  rw [tallies.kind]
  rfl

variable (lists : h.Lists a c) (sound : h.Sound)
include lists sound

/-- The count of a label that is entered goes up by one. -/
theorem enter {grown : Option Axis} (listed : c.labels[k]? = some label)
    (few : counts label + 1 < 2 ^ 64) :
    { h with bins := h.enter [⟨k, 0, grown⟩] none none }.Tallies c (tick counts label) := by
  have taken := Category.takes_of_mem (List.mem_of_getElem? listed)
  constructor
  case kind => exact (kind_enter ..).trans tallies.kind
  case cells =>
    intro j other there
    have single : [(⟨k, 0, grown⟩ : Axis.Placement)].length = h.rank := lists.rank_eq.symm
    have entered := sound.tally_enter tallies.integral single none
      (lists.addresses_of_listed sound there)
    have same : [(j : Int)] = [(⟨k, 0, grown⟩ : Axis.Placement)].map (·.index) ↔
        (label == other) = true := by
      rw [Category.beq_iff_eq_of_takes taken, ← lists.listed_inj sound there listed,
        List.map_singleton, List.singleton_inj, Int.natCast_inj]
    refine entered.trans ?_
    rw [tallies.cells j other there, amount_none]
    simp only [same, tick]
    split
    · rename_i known
      obtain rfl := (Category.beq_iff_eq_of_takes taken _).mp known
      exact StorageKind.hold_of_lt _ few
    · rfl
  case unlisted =>
    intro other others unlisted
    have apart : ¬ (label == other) = true := by
      rw [Category.beq_iff_eq_of_takes taken]
      rintro rfl
      exact unlisted (List.mem_of_getElem? listed)
    simp only [tick, if_neg apart, tallies.unlisted other others unlisted]

/-- Growth by a label keeps the counts of all others. -/
theorem grow (keeps : r.KeepsShape) (taken : c.takes label = true) (new : label ∉ c.labels)
    {placements : List Axis.Placement} (located : h.locate [label] = .ok placements)
    (grows : h.grow r placements = .ok grown) (allocated : grown.Allocated) :
    grown.Tallies (c.append label) counts := by
  have integral := tallies.integral
  obtain ⟨b, after, still⟩ := lists.grow sound keeps taken new located grows
  have grown_sound := sound.grow keeps located grows allocated
  obtain ⟨old, empty⟩ := sound.grow_contents keeps located grows allocated
    (Bins.not_unlimited_of_isIntegral integral)
  have labels := Category.labels_append taken
  constructor
  case kind => exact (kind_of_grow located grows).trans tallies.kind
  case cells =>
    intro k other listed
    rw [labels] at listed
    rcases Nat.lt_or_ge k c.labels.length with below | beyond
    · rw [List.getElem?_append_left below] at listed
      have has := lists.addresses_of_listed sound listed
      have kept := (old _ has).2
      rw [still _ has] at kept
      rw [Bins.tally, kept, Bins.get_eq_count integral, StorageKind.tally_merge_zero integral
        (sound.tally_lt integral _), tallies.cells k other listed]
    · -- the bin behind all others is that of the new label
      rw [List.getElem?_append_right beyond, List.getElem?_singleton] at listed
      obtain ⟨last, same⟩ := (Option.ite_none_right_eq_some ..).mp listed
      obtain rfl := Option.some.inj same
      have has : grown.Addresses [(k : Int)] := by
        rw [after.addresses_iff grown_sound, labels, List.length_append, List.length_singleton]
        omega
      have free := empty _ has fun is old same => by
        rw [still is old] at same
        rw [same, lists.addresses_iff sound] at old
        omega
      rw [Bins.tally, free, StorageKind.tally_zero integral, tallies.unlisted label taken new]
  case unlisted =>
    intro other others unlisted
    rw [labels, List.mem_append, not_or] at unlisted
    rw [Category.takes_eq_of_hasTexts (Category.hasTexts_append c label)] at others
    exact tallies.unlisted other others unlisted.1

/-- The bin of a label, once there is room for it. -/
theorem room (keeps : r.KeepsShape) (taken : c.takes label = true) :
    ∃ (k : Nat) (grows : Option Axis), h.locate [label] = .ok [⟨k, 0, grows⟩] ∧
      (c.learn label).labels[k]? = some label ∧
      ∀ grown, h.roomFor r [⟨k, 0, grows⟩] = .ok grown → grown.Allocated →
        grown.Sound ∧ (∃ b, grown.Lists b (c.learn label)) ∧
          grown.Tallies (c.learn label) counts := by
  by_cases listed : label ∈ c.labels
  · obtain ⟨k, there⟩ := List.mem_iff_getElem?.mp listed
    rw [Category.learn_of_mem listed]
    refine ⟨k, none, lists.locate_of_listed sound there, there, fun grown room _ => ?_⟩
    cases room
    exact ⟨sound, ⟨a, lists⟩, tallies⟩
  · have located := lists.locate_of_new sound taken listed
    rw [Category.learn_of_not_mem taken listed]
    refine ⟨c.size, _, located, ?_, fun grown grows allocated => ?_⟩
    · rw [Category.labels_append taken, ← Category.length_labels, List.getElem?_concat_length]
    · obtain ⟨b, after, _⟩ := lists.grow sound keeps taken listed located grows
      exact ⟨sound.grow keeps located grows allocated, ⟨b, after⟩,
        tallies.grow lists sound keeps taken listed located grows allocated⟩

/-- One label is counted, and it is listed if it was not. -/
theorem record (covers : r.Covers) (keeps : r.KeepsShape) (taken : c.takes label = true)
    (few : counts label + 1 < 2 ^ 64) : ∃ after, h.record r [label] = .ok after ∧
      (after.Allocated → (∃ b, after.Lists b (c.learn label)) ∧
        after.Tallies (c.learn label) (tick counts label)) := by
  obtain ⟨k, grows, located, listed, grown⟩ := tallies.room lists sound keeps taken
  obtain ⟨wide, room⟩ := roomFor_of_covers covers h [⟨k, 0, grows⟩]
  refine ⟨{ wide with bins := wide.enter [⟨k, 0, grows⟩] none none }, ?_, fun allocated => ?_⟩
  · have admitted : h.storage.kind.checkEntry none none = .ok () :=
      StorageKind.checkEntry_none (sound.kind ▸ tallies.integral)
    rw [record_eq_bind, admitted, located]
    change (h.roomFor r _ >>= _) = _
    rw [room]
    rfl
  · obtain ⟨wide_sound, ⟨b, after⟩, kept⟩ := grown wide room allocated
    exact ⟨⟨b, after.one, after.law, after.grows⟩, kept.enter after wide_sound listed few⟩

/-- Nothing else is counted. -/
theorem skip (other : c.takes label = false) :
    h.record r [label] = .error (.index (.labelLookup c.hasTexts label)) ∧
      h.Tallies c (tick counts label) := by
  constructor
  · have admitted : h.storage.kind.checkEntry none none = .ok () :=
      StorageKind.checkEntry_none (sound.kind ▸ tallies.integral)
    rw [record_eq_bind, admitted, lists.locate_eq_error other]
    rfl
  · have same : ∀ known, c.takes known = true → tick counts label known = counts known := by
      intro known taken
      rw [tick, Category.beq_eq_false_of_takes taken other]
      rfl
    constructor
    case kind => exact tallies.kind
    case cells =>
      intro k known listed
      have taken := Category.takes_of_mem (List.mem_of_getElem? listed)
      rw [tallies.cells k known listed, same known taken]
    case unlisted =>
      intro known taken unlisted
      rw [same known taken, tallies.unlisted known taken unlisted]

end Tallies

/-! ### Runs -/

/-- What the entries of a run come to when they are filled one by one. -/
def results (r : Registry) (h : Histogram) : List (List Coord) → List (Except Error Unit)
  | [] => []
  | coords :: rest => (h.fill r coords).result :: results r (h.fill r coords).state rest

/-- What labels of one type make of another coordinate: they take it if it is of
that type. -/
def verdict (c : Category) (label : Coord) : Except Error Unit :=
  if c.takes label then .ok () else .error (.index (.labelLookup c.hasTexts label))

theorem verdict_learn (c : Category) (label : Coord) : verdict (c.learn label) = verdict c := by
  funext other
  have texts := c.hasTexts_learn label
  rw [verdict, verdict, texts, Category.takes_eq_of_hasTexts texts]

theorem results_of_error {coords : List Coord} {e : Error}
    (failed : h.record r coords = .error e) (rest : List (List Coord)) :
    h.results r (coords :: rest) = .error e :: h.results r rest := by
  rw [results, Histogram.fill, failed]
  rfl

theorem results_of_ok {coords : List Coord} {after : Histogram}
    (done : h.record r coords = .ok after) (rest : List (List Coord)) :
    h.results r (coords :: rest) = .ok () :: after.results r rest := by
  rw [results, Histogram.fill, done]
  rfl

/-- A run of labels counts those of the type of the axis. -/
theorem Tallies.fills {a : Axis} (tallies : h.Tallies c counts) (lists : h.Lists a c)
    (sound : h.Sound) (covers : r.Covers) (keeps : r.KeepsShape) {coords : List Coord}
    (few : ∀ label, counts label + coords.length < 2 ^ 64)
    (allocated : (h.fills r (coords.map ([·]))).Allocated) :
    h.results r (coords.map ([·])) = coords.map (verdict c) ∧
      (∃ b, (h.fills r (coords.map ([·]))).Lists b (coords.foldl Category.learn c)) ∧
      (h.fills r (coords.map ([·]))).Tallies (coords.foldl Category.learn c)
        fun label => counts label + coords.count label := by
  induction coords generalizing h c counts a with
  | nil => exact ⟨rfl, ⟨a, lists⟩, tallies⟩
  | cons label coords ih =>
    rw [List.map_cons] at allocated ⊢
    rw [List.foldl_cons]
    have counted : (fun other => counts other + (label :: coords).count other) =
        fun other => tick counts label other + coords.count other := by
      funext other
      rw [List.count_cons, tick]
      omega
    have room : ∀ other, tick counts label other + coords.length < 2 ^ 64 := by
      intro other
      have bound := few other
      rw [List.length_cons] at bound
      rw [tick]
      split <;> omega
    rw [counted]
    cases taken : c.takes label with
    | false =>
      obtain ⟨refused, kept⟩ := tallies.skip (r := r) lists sound taken
      rw [(fills_of_error refused _).1] at allocated ⊢
      rw [Category.learn_of_not_takes taken]
      obtain ⟨results, last⟩ := ih kept lists sound room allocated
      refine ⟨?_, last⟩
      rw [results_of_error refused, results, List.map_cons, verdict, taken]
      rfl
    | true =>
      obtain ⟨after, done, step⟩ :=
        tallies.record lists sound covers keeps taken (Nat.lt_of_le_of_lt (by simp) (few label))
      obtain ⟨_, _, last, _⟩ := fills_of_ok done (coords.map ([·]))
      rw [last] at allocated ⊢
      have after_sound := sound.after_of_fills keeps done allocated
      obtain ⟨⟨b, axis⟩, kept⟩ := step after_sound.allocated
      obtain ⟨results, last⟩ := ih kept axis after_sound room allocated
      refine ⟨?_, last⟩
      rw [results_of_ok done, results, List.map_cons, verdict_learn, verdict, taken]
      rfl

/-- What a run of labels leaves of a histogram over one growing axis of labels that
started empty. -/
structure CountsLabels (r : Registry) (h : Histogram) (c : Category) (coords : List Coord)
    (reached : Category) : Prop where
  results : h.results r (coords.map ([·])) = coords.map (verdict c)
  axis : ∃ a, (h.fills r (coords.map ([·]))).Lists a reached
  /-- The labels of the start come first, then the new ones in order of first appearance. -/
  labels : reached.labels = c.labels ++ c.newcomers coords
  distinct : reached.labels.Nodup
  oneType : reached.hasTexts = c.hasTexts
  index : ∀ (k : Nat) label, reached.labels[k]? = some label → reached.index label = .ok k
  unknown : ∀ label, reached.takes label = true → label ∉ reached.labels →
    reached.index label = .ok reached.size
  /-- The cell of a label holds the number of times that it came. -/
  counts : ∀ (k : Nat) label, reached.labels[k]? = some label →
    (h.fills r (coords.map ([·]))).contentAt [(k : Int)] = .ok (.count (coords.count label))

/-- Over growing labels a histogram counts each label that it is filled with. -/
theorem Reachable.counts_labels (reachable : h.Reachable) (known : r.Known) (keeps : r.KeepsShape)
    {a : Axis} (lists : h.Lists a c) (started : h.bins = .empty .int h.bins.length)
    (coords : List Coord) (few : coords.length < 2 ^ 64)
    (allocated : (h.fills r (coords.map ([·]))).Allocated) :
    CountsLabels r h c coords (coords.foldl Category.learn c) := by
  have sound := reachable.sound
  have kind : h.bins.kind = .int := started ▸ Bins.kind_empty ..
  have tallies : h.Tallies c fun _ => 0 := by
    refine ⟨kind, fun k label listed => ?_, fun _ _ _ => rfl⟩
    rw [started, Bins.tally, Bins.get_empty]
    rfl
  obtain ⟨results, ⟨b, axis⟩, kept⟩ :=
    tallies.fills lists sound known.covers keeps (by simpa only [Nat.zero_add] using fun _ => few)
      allocated
  have last_sound := (sound.fills keeps allocated).1
  constructor
  case results => exact results
  case axis => exact ⟨b, axis⟩
  case labels => exact Category.labels_foldl_learn c coords
  case distinct => exact axis.distinct last_sound
  case oneType => exact Category.hasTexts_foldl_learn c coords
  case index => exact fun k label listed =>
    Category.index_of_getElem? (axis.distinct last_sound) listed
  case unknown => exact fun label taken unlisted => Category.index_of_not_mem taken unlisted
  case counts =>
    intro k label listed
    have has := axis.addresses_of_listed last_sound listed
    rw [contentAt_of_addresses has, Bins.get_eq_count kept.integral, kept.cells k label listed,
      Nat.zero_add]

/-- The label 3 on an axis that grows. -/
def growingLabels : Histogram where
  axes := [⟨⟨3, "Category", .main⟩, .category (.ints [3]), { growth := true }, none⟩]
  storage := ⟨⟨4, "Int", .main⟩, .int⟩
  bins := .empty .int 1
  family := .main

theorem reachable_growingLabels : growingLabels.Reachable := by
  have built : Blueprint.build (.category [.int 3]) { growth := true } none =
      .ok ⟨.category (.ints [3]), { growth := true }, none⟩ := rfl
  have new : Histogram.new .builtin growingLabels.axes .int = .ok growingLabels := rfl
  exact .new Registry.builtin_keepsShape (List.forall_mem_singleton.mpr (.built built)) new
    (by decide)

/-- A new label twice, the known one, and two coordinates that are refused. -/
def mixedLabels : List Coord := [.int 7, .text "7", .int 3, .float 7, .int 7]

theorem counts_labels_growingLabels :
    (Category.ints [3]).newcomers mixedLabels = [.int 7] ∧
      CountsLabels .builtin growingLabels (.ints [3]) mixedLabels (.ints [3, 7]) := by
  have lists : growingLabels.Lists ⟨.category (.ints [3]), { growth := true }, none⟩ (.ints [3]) :=
    ⟨rfl, rfl, rfl⟩
  refine ⟨rfl, ?_⟩
  exact reachable_growingLabels.counts_labels .builtin Registry.builtin_keepsShape lists rfl
    mixedLabels (by decide) (by decide +kernel)

end Binning.Histogram
