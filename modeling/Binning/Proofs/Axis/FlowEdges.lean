import Binning.Proofs.Axis.EdgeBins
import Binning.Proofs.Axis.IntegerLookup
import Binning.Proofs.Law.OuterEdges

/-! Flow edges. A dense export puts an edge in front of those in range for an underflow bin
and one behind them for an overflow bin. These are outside the edges in range as long as the
inverse of the transform tells the infinities apart, also on a circle, where they are the
edges of one more bin on either side. Off a circle the bin in front holds nothing that lookup
puts in range but for rounding: a position that is rounded to zero, or a first edge that is
rounded up on its way through the transform and back. Where the inverse folds the line, the
edge in front is the upper infinity and the bin there holds all that is above the first edge. -/
namespace Binning
open Results Binary64

/-- An integer among coordinates is a signed word. -/
def Coord.Received : Coord → Prop
  | .int n => Word64.Signed n
  | _ => True

namespace Axis
variable [Elementary] {a : Axis}

/-- Edge `i` of a dense export. -/
def edgeAt (a : Axis) (i : Int) : Float := (a.value (ofInt i)).toOption.getD (ofInt i)

/-- The edges of the bins in range. -/
def innerEdges (a : Axis) : List Float := (List.range (a.size + 1)).map fun (k : ℕ) => a.edgeAt k

theorem mem_innerEdges {x : Float} : x ∈ a.innerEdges ↔ ∃ k < a.size + 1, a.edgeAt (k : ℕ) = x := by
  simp only [innerEdges, List.mem_map, List.mem_range]

theorem denseEdges_eq (word : a.size < 2 ^ 63) (flow : Bool) : a.denseEdges flow =
    (if flow && a.options.underflow then [a.edgeAt (-1)] else []) ++ a.innerEdges ++
      if flow && a.options.overflow then [a.edgeAt (a.size + 1 : ℕ)] else [] := by
  unfold innerEdges
  have beyond : a.beyond = a.size := Word64.signed_of_lt word
  change (List.range _).map (fun (k : ℕ) => a.edgeAt (_ + k)) = _
  rw [beyond]
  generalize (flow && a.options.underflow) = below
  generalize (flow && a.options.overflow) = above
  have count : ((a.size : ℤ) + (if above then 1 else 0) - (if below then -1 else 0) + 1).toNat =
      below.toNat + (a.size + 1 + above.toNat) := by
    cases below <;> cases above <;> simp only [Bool.toNat, cond, if_true, if_false,
      Bool.false_eq_true] <;> omega
  rw [count, List.range_add, List.range_add]
  cases below <;> cases above <;> simp [Function.comp_def]

theorem denseEdges_false (word : a.size < 2 ^ 63) : a.denseEdges false = a.innerEdges := by
  rw [denseEdges_eq word, Bool.false_and, Bool.false_and, if_neg Bool.false_ne_true,
    if_neg Bool.false_ne_true, List.nil_append, List.append_nil]

/-! ### Edges by law -/

/-- The transform in whose space the bins are. -/
def transform (a : Axis) : Transform :=
  match a.law with
  | .regular r => r.transform
  | _ => .id

/-- The edges are in order, as far as the law does not see to it. -/
def Ascends (a : Axis) : Prop :=
  match a.law with
  | .regular r => r.Ascends ∧ (a.options.circular = true → r.transform = .id)
  | .edges e => e.Ordered ∧ e.Addressable
  | .integer r => Word64.Signed r.start
  | .category _ => True

theorem value_of_line {r : Regular} (law : a.law = .regular r)
    (line : a.options.circular = false) (x : Float) : a.value x = .ok (r.value x) := by
  rw [value, law]
  simp only [line, Bool.false_eq_true, if_false]
  rfl

theorem value_of_circle {r : Regular} (law : a.law = .regular r)
    (wraps : a.options.circular = true) (plain : r.transform = .id) (x : Float) :
    a.value x = .ok (r.grid.repeatedAt x) := by
  rw [value, law]
  simp only [wraps, if_true, Regular.valueCircular, plain]
  rfl

section
variable {f : Float → Float} (value : ∀ x, a.value x = .ok (f x))
include value

theorem edgeAt_of_value (i : Int) : a.edgeAt i = f (ofInt i) := by
  rw [edgeAt, value]
  rfl

theorem bin_of_value (i : Int) : a.bin i = .ok (.interval ⟨f (ofInt i), f (ofInt i + 1)⟩) := by
  have numbers : ∀ c, a.law ≠ .category c := by
    intro c labels
    have none := value 0
    rw [Axis.value, labels] at none
    cases none
  unfold Axis.bin
  split
  · exact absurd ‹_› (numbers _)
  · rw [value, value]
    rfl

end

section
variable (ascends : a.Ascends) (standard : a.transform.Standard)
include ascends standard

/-- No edge from the first on is below the one in front. -/
theorem Ascends.not_edge_lt_front (keeps : ¬ a.transform.Folds) {k : ℕ} (small : k < 2 ^ 53) :
    ¬ a.edgeAt k < a.edgeAt (-1) := by
  obtain ⟨law, options, label⟩ := a
  cases law with
  | regular r =>
    obtain ⟨ascends, plain⟩ := ascends
    cases wraps : options.circular with
    | true =>
      have value := value_of_circle (a := ⟨.regular r, options, label⟩) rfl wraps (plain wraps)
      rw [edgeAt_of_value value, edgeAt_of_value value]
      exact Grid.not_repeatedAt_lt ascends.sized ascends.word ascends.finite (ascends.pos keeps)
        denotes_front (denotes_ofInt_natCast small) (by omega) (by decide) (by omega)
    | false =>
      have value := value_of_line (a := ⟨.regular r, options, label⟩) rfl wraps
      rw [edgeAt_of_value value, edgeAt_of_value value, Regular.value_front ascends keeps]
      exact standard.not_inverse_lt ascends.rises keeps _
  | edges e =>
    change ¬ e.value (ofInt k) < e.value (ofInt (-1))
    rw [e.value_front]
    exact not_lt_neg_infinity _
  | integer r =>
    change ¬ r.value (ofInt k) < r.value (ofInt (-1))
    rw [r.value_front]
    exact not_lt_neg_infinity _
  | category c =>
    change ¬ ofInt k < ofInt (-1)
    rw [(denotes_ofInt_natCast small).lt_iff denotes_front]
    omega

/-- Where the inverse folds the line, the edge in front is the upper infinity. -/
theorem Ascends.edge_front_of_folds (folds : a.transform.Folds) : a.edgeAt (-1) = infinity := by
  obtain ⟨law, options, label⟩ := a
  cases law with
  | regular r =>
    obtain ⟨ascends, plain⟩ := ascends
    have line : options.circular = false := by
      cases wraps : options.circular with
      | false => rfl
      | true =>
        have same : r.transform = .id := plain wraps
        change r.transform.Folds at folds
        rw [same] at folds
        exact absurd folds Transform.not_folds_id
    rw [edgeAt_of_value (value_of_line (a := ⟨.regular r, options, label⟩) rfl line)]
    exact Regular.value_front_of_folds ascends standard folds
  | edges | integer | category => exact absurd folds Transform.not_folds_id

/-- No edge up to the last is above the one behind. -/
theorem Ascends.not_behind_lt_edge (small : a.size + 1 < 2 ^ 53) {k : ℕ} (inside : k ≤ a.size) :
    ¬ a.edgeAt (a.size + 1 : ℕ) < a.edgeAt k := by
  have next := denotes_ofInt_natCast small
  have whole := denotes_ofInt_natCast (k := k) (by omega)
  obtain ⟨law, options, label⟩ := a
  cases law with
  | regular r =>
    obtain ⟨ascends, plain⟩ := ascends
    cases wraps : options.circular with
    | true =>
      have keeps : ¬ r.transform.Folds := by
        rw [plain wraps]
        exact Transform.not_folds_id
      have value := value_of_circle (a := ⟨.regular r, options, label⟩) rfl wraps (plain wraps)
      rw [edgeAt_of_value value, edgeAt_of_value value]
      exact Grid.not_repeatedAt_lt ascends.sized ascends.word ascends.finite (ascends.pos keeps)
        whole next (by omega) (by omega) (by omega)
    | false =>
      have behind : r.value (ofInt (r.size + 1 : ℕ)) = infinity :=
        Regular.value_behind ascends standard small
      have value := value_of_line (a := ⟨.regular r, options, label⟩) rfl wraps
      rw [edgeAt_of_value value, edgeAt_of_value value]
      change ¬ r.value (ofInt (r.size + 1 : ℕ)) < _
      rw [behind]
      exact not_infinity_lt _
  | edges e =>
    change ¬ e.value (ofInt (e.size + 1 : ℕ)) < e.value (ofInt k)
    rw [Edges.value_behind small]
    exact not_infinity_lt _
  | integer r =>
    change ¬ r.value (ofInt (r.size + 1 : ℕ)) < r.value (ofInt k)
    rw [IntegerRange.value_behind small]
    exact not_infinity_lt _
  | category c =>
    intro reversed
    have order := (next.lt_iff whole).mp reversed
    omega

end

/-! ### The bin in front -/

theorem exists_value (numbers : a.isCategory = false) :
    ∃ f : Float → Float, ∀ x, a.value x = .ok (f x) := by
  obtain ⟨law, options, label⟩ := a
  cases law with
  | regular | edges | integer => exact ⟨_, fun _ => rfl⟩
  | category => contradiction

theorem index_of_regular {c : Coord} {x : Float} {r : Regular} (numeric : c.toFloat? = some x)
    (law : a.law = .regular r) (line : a.options.circular = false) :
    a.index c = .ok (r.index x) := by
  rw [index, law]
  simp only [line, Axis.numeric, numeric]
  rfl

/-- What is in front of the first edge and is put in range has been rounded there. -/
theorem Ascends.rounds_of_lt (ascends : a.Ascends) (standard : a.transform.Standard)
    (keeps : ¬ a.transform.Folds) (line : a.options.circular = false) {c : Coord} {x first : Float}
    {i : Int} (received : c.Received) (numeric : c.toFloat? = some x)
    (edge : a.value (ofInt 0) = .ok first) (front : x < first) (found : a.index c = .ok i)
    (inside : a.InRange i) : ∃ r, a.law = .regular r ∧ r.Rounds x := by
  obtain ⟨law, options, label⟩ := a
  cases law with
  | regular r =>
    rw [value_of_line rfl line] at edge
    cases edge
    rw [index_of_regular numeric rfl line] at found
    cases found
    exact ⟨r, rfl, Regular.rounds_of_lt ascends.1 standard keeps front inside.1 inside.2⟩
  | edges e =>
    obtain ⟨ordered, small⟩ := ascends
    cases edge
    rw [small.value_eq_edge (Nat.zero_le _) denotes_first] at front
    rw [index_of_edges rfl numeric] at found
    cases found
    exact absurd inside.1 (not_le.mpr (ordered.index_of_lt front))
  | integer r =>
    have origin : Word64.Signed r.start := ascends
    cases edge
    have below := lt_of_lt_of_beq front (IntegerRange.value_first denotes_first origin)
    have outside : i = -1 := by
      cases c with
      | float y =>
        cases numeric
        cases found
        exact IntegerRange.index_of_lt origin below
      | int n =>
        cases numeric
        cases found
        exact IntegerRange.indexInt_of_lt origin received below
      | text => contradiction
    rw [outside] at inside
    exact absurd inside.1 (by decide)
  | category => cases edge

/-! ### The order of all edges -/

/-- A dense export with these lists of edges in front of those in range and behind them. -/
structure AddsFlow (a : Axis) (flow : Bool) (front behind : List Float) : Prop where
  edges : a.denseEdges flow = front ++ a.denseEdges false ++ behind
  front_length : front.length = (flow && a.options.underflow).toNat
  behind_length : behind.length = (flow && a.options.overflow).toNat
  front_outside : ¬ a.transform.Folds → ∀ x ∈ front, ∀ e ∈ a.denseEdges false, ¬ e < x
  front_folded : a.transform.Folds → ∀ x ∈ front, x = infinity
  behind_outside : ∀ x ∈ behind, ∀ e ∈ a.denseEdges false, ¬ x < e

/-- The bin in front is `outer` and the first one is `inner`. -/
structure FrontBin (a : Axis) (outer inner : Interval Float) : Prop where
  front : a.bin (-1) = .ok (.interval outer)
  first : a.bin 0 = .ok (.interval inner)
  /-- The bin in front begins no later than the first one. -/
  begins : ¬ a.transform.Folds → ¬ inner.lower < outer.lower
  /-- It ends where the first one begins. -/
  before : ¬ a.transform.Folds → ∀ x, outer.contains x = true → x < inner.lower
  /-- Off a circle it holds nothing that is put in range but what is rounded there. -/
  apart : ¬ a.transform.Folds → a.options.circular = false → ∀ c x i, c.Received →
    c.toFloat? = some x → outer.contains x = true → a.index c = .ok i → a.InRange i →
      ∃ r, a.law = .regular r ∧ r.Rounds x
  /-- Where the inverse folds the line, it begins at the upper infinity and holds all that is
  above the first edge. -/
  folded : a.transform.Folds → outer.lower = infinity ∧
    ∀ x, outer.contains x = true ↔ inner.lower < x

/-- The flow edges are outside those in range, as far as the inverse of the transform tells the
infinities apart. A list of edges is one that a memory holds. -/
structure OrdersFlow (a : Axis) : Prop where
  inner : Word64.InMemory (a.extent + 1) → (a.denseEdges false).length = a.size + 1
  dense : Word64.InMemory (a.extent + 1) → ∀ flow, ∃ front behind, a.AddsFlow flow front behind
  front : a.isCategory = false → ∃ outer inner, a.FrontBin outer inner

section
variable (ascends : a.Ascends) (standard : a.transform.Standard)
include ascends standard

theorem Ascends.addsFlow (small : Word64.InMemory (a.extent + 1)) (flow : Bool) :
    ∃ front behind, a.AddsFlow flow front behind := by
  have parts := a.extent_eq
  have few := Word64.inMemory_iff.mp small
  have short : a.size < 2 ^ 63 := by omega
  have same := denseEdges_false short
  have edges := denseEdges_eq short flow
  rw [← same] at edges
  refine ⟨_, _, edges, ?front_length, ?behind_length, ?front_outside, ?front_folded,
    ?behind_outside⟩
  case front_length => cases flow && a.options.underflow <;> rfl
  case behind_length => cases flow && a.options.overflow <;> rfl
  case front_outside =>
    intro keeps x among e inner
    obtain ⟨_, among⟩ := List.mem_ite_nil_right.mp among
    obtain rfl := List.mem_singleton.mp among
    obtain ⟨k, inside, rfl⟩ := mem_innerEdges.mp (same ▸ inner)
    exact ascends.not_edge_lt_front standard keeps (by omega)
  case front_folded =>
    intro folds x among
    obtain ⟨_, among⟩ := List.mem_ite_nil_right.mp among
    obtain rfl := List.mem_singleton.mp among
    exact ascends.edge_front_of_folds standard folds
  case behind_outside =>
    intro x among e inner
    obtain ⟨above, among⟩ := List.mem_ite_nil_right.mp among
    obtain rfl := List.mem_singleton.mp among
    obtain ⟨k, inside, rfl⟩ := mem_innerEdges.mp (same ▸ inner)
    rw [(Bool.and_eq_true_iff.mp above).2, Bool.toNat_true] at parts
    exact ascends.not_behind_lt_edge standard (by omega) (by omega)

theorem Ascends.frontBin (numbers : a.isCategory = false) :
    ∃ outer inner, a.FrontBin outer inner := by
  obtain ⟨f, value⟩ := exists_value numbers
  have front := bin_of_value value (-1)
  rw [succ_front] at front
  have order : ¬ a.transform.Folds → ¬ f (ofInt 0) < f (ofInt (-1)) := by
    intro keeps
    have order := ascends.not_edge_lt_front standard keeps (k := 0) (by decide)
    rwa [edgeAt_of_value value, edgeAt_of_value value] at order
  have before (keeps : ¬ a.transform.Folds) (x : Float)
      (held : (Interval.mk (f (ofInt (-1))) (f (ofInt 0))).contains x = true) :
      x < f (ofInt 0) := (Interval.lt_of_contains (order keeps) held).2
  refine ⟨_, _, front, bin_of_value value 0, order, before, ?apart, ?folded⟩
  case apart =>
    intro keeps line c x i received numeric held found inside
    exact ascends.rounds_of_lt standard keeps line received numeric (value _)
      (before keeps x held) found inside
  case folded =>
    intro folds
    have edge := ascends.edge_front_of_folds standard folds
    rw [edgeAt_of_value value] at edge
    rw [edge]
    exact ⟨rfl, fun x => Interval.contains_infinity_iff⟩

theorem Ascends.ordersFlow : a.OrdersFlow where
  inner small := by
    have parts := a.extent_eq
    have few := Word64.inMemory_iff.mp small
    rw [denseEdges_false (by omega), innerEdges, List.length_map, List.length_range]
  dense := ascends.addsFlow standard
  front := ascends.frontBin standard

end

/-- The bin in front holds a number that is put in range. -/
def Overlaps (a : Axis) (x : Float) : Prop :=
  ∃ front i, a.bin (-1) = .ok (.interval front) ∧ front.contains x = true ∧
    a.index (.float x) = .ok i ∧ a.InRange i

end Axis

/-! ### Axes that are built -/

namespace Blueprint

/-- The ends are in order, where the law does not see to it. -/
def Ascends : Blueprint → Prop
  | .regular _ start stop t => start < stop ∧ t.Rises
  | _ => True

/-- Sizes and integers are words, and a memory holds the list of edges. -/
def Received : Blueprint → Prop
  | .regular bins .. => bins < 2 ^ 64
  | .edges list => Word64.InMemory list.length
  | .integer start stop => Word64.Signed start ∧ Word64.Signed stop
  | .category _ => True

section
variable [Elementary] {b : Blueprint} {requested : Options} {label : Option String} {a : Axis}

theorem ascends_of_build (ascends : b.Ascends) (received : b.Received)
    (standard : a.transform.Standard) (built : b.build requested label = .ok a) : a.Ascends := by
  cases b with
  | regular bins start stop t =>
    simp only [build, bind_eq_ok, pure_eq_ok] at built
    obtain ⟨options, resolved, r, made, rfl⟩ := built
    have same : r.transform = t := by
      obtain ⟨_, _, _, _, rfl⟩ := Regular.new_eq_ok made
      rfl
    have standard : t.Standard := same ▸ standard
    refine ⟨Regular.ascends_of_new received ascends.1 ascends.2 standard made, fun wraps => ?_⟩
    rw [same]
    unfold resolveRegular at resolved
    split at resolved
    · rfl
    · rw [ite_throw_eq_ok, pure_eq_ok] at resolved
      obtain ⟨rfl, rfl⟩ := resolved
      contradiction
  | edges list =>
    simp only [build, bind_eq_ok, pure_eq_ok] at built
    obtain ⟨e, made, options, _, rfl⟩ := built
    refine ⟨Edges.ordered_of_new made, ?_⟩
    obtain ⟨same, _⟩ := Edges.list_of_new made
    rw [Edges.Addressable, same]
    exact received
  | integer start stop =>
    simp only [build, bind_eq_ok, pure_eq_ok] at built
    obtain ⟨options, _, r, made, rfl⟩ := built
    obtain ⟨_, _, rfl⟩ := IntegerRange.new_eq_ok made
    exact received.1
  | category labels =>
    simp only [build, bind_eq_ok, pure_eq_ok] at built
    obtain ⟨options, _, c, _, rfl⟩ := built
    trivial

/-- Every axis that is built from ends in order has its flow edges in order. -/
theorem ordersFlow_of_build (ascends : b.Ascends) (received : b.Received)
    (standard : a.transform.Standard) (built : b.build requested label = .ok a) :
    a.OrdersFlow :=
  (ascends_of_build ascends received standard built).ordersFlow standard

end

/-- A logarithm in steps, which is right at 1 and 100. -/
def steppedLog (x : Float) : Float :=
  if x < 1 then -infinity else if x < 100 then 0 else Float.ofBits 0x40126BB1BBB55516

/-- An exponential in steps, which is right at the edges of two bins from 1 to 100. -/
def steppedExp (u : Float) : Float :=
  if u < 0 then 0
  else if u < 1 then 1
  else if u < 3 then 10.000000000000002
  else if u < infinity then 100.00000000000004
  else infinity

@[reducible]
def decades : Elementary := ⟨steppedExp, steppedLog, fun x _ => x⟩

theorem steppedLog_le {x y : Float} (order : x < y) (finite : isFinite (steppedLog x) = true) :
    steppedLog x ≤ steppedLog y := by
  unfold steppedLog at *
  by_cases under : x < 1
  · rw [if_pos under] at finite
    contradiction
  · have far : ¬ y < 1 := fun below => under (lt_of_le_of_lt (le_of_lt order) below)
    rw [if_neg under, if_neg far]
    by_cases short : y < 100
    · rw [if_pos (lt_of_le_of_lt (le_of_lt order) short), if_pos short]
      decide
    · rw [if_neg short]
      split <;> decide

theorem steppedExp_not_lt_zero (u : Float) : ¬ steppedExp u < 0 := by
  unfold steppedExp
  split
  · decide
  split
  · decide
  split
  · decide
  split <;> decide

theorem logarithmic_decades : @Transform.Logarithmic decades :=
  @Transform.Logarithmic.mk decades (fun _ _ order finite => steppedLog_le order finite) rfl rfl
    steppedExp_not_lt_zero

/-- Two bins from 1 to 100, even in the logarithm. -/
def twoDecades : Axis := ⟨.regular ⟨⟨2, 0, Float.ofBits 0x40126BB1BBB55516⟩, .log⟩, .flow, none⟩

theorem ordersFlow_twoDecades : letI := decades
    (regular 2 1 100 .log).Ascends ∧ (regular 2 1 100 .log).Received ∧
      twoDecades.transform.Standard ∧ ¬ twoDecades.transform.Folds ∧
        (regular 2 1 100 .log).build .flow none = .ok twoDecades ∧ twoDecades.OrdersFlow := by
  have ascends : (regular 2 1 100 .log).Ascends := ⟨by decide, trivial⟩
  have received : (regular 2 1 100 .log).Received := by
    change 2 < 2 ^ 64
    decide
  have standard : @Transform.Standard decades twoDecades.transform := logarithmic_decades
  have built : @build decades (regular 2 1 100 .log) .flow none = .ok twoDecades := rfl
  have keeps := @Transform.Logarithmic.not_folds decades logarithmic_decades
  exact ⟨ascends, received, standard, keeps, built,
    @ordersFlow_of_build decades _ _ _ _ ascends received standard built⟩

/-! ### Out of order -/

/-- Four bins from 1 to 9, even in the square root. -/
def fourSquares : Axis := ⟨.regular ⟨⟨4, 1, 2⟩, .sqrt⟩, .flow, none⟩

/-- Four bins of width one around a circle. -/
def fourAround : Axis := ⟨.regular ⟨⟨4, 0, 4⟩, .id⟩, { overflow := true, circular := true }, none⟩

/-- Ten bins of width one. -/
def tenBins : Axis := ⟨.regular ⟨⟨10, 0, 10⟩, .id⟩, .flow, none⟩

theorem build_fourSquares : (regular 4 1 9 .sqrt).build .flow none = .ok fourSquares := by
  have first : Transform.sqrt.forward 1 = 1 := by
    change Float.sqrt 1 = 1
    decide +kernel
  have last : Transform.sqrt.forward 9 = 3 := by
    change Float.sqrt 9 = 3
    decide +kernel
  have span : (3 - 1 : Float) = 2 := by decide +kernel
  have made : Regular.new 4 1 9 .sqrt = .ok ⟨⟨4, 1, 2⟩, .sqrt⟩ := by
    simp only [Regular.new, first, last, span]
    rfl
  simp only [build, made]
  rfl

theorem overlaps_fourSquares : fourSquares.Overlaps 4 := by
  have four : Transform.sqrt.forward 4 = 2 := by
    change Float.sqrt 4 = 2
    decide +kernel
  have index : Regular.index ⟨⟨4, 1, 2⟩, .sqrt⟩ 4 = 2 := by
    unfold Regular.index
    rw [four]
    decide
  have bin := Axis.bin_of_value (Axis.value_of_line (a := fourSquares) rfl rfl) (-1)
  have found := Axis.index_of_regular (a := fourSquares) (c := .float 4) rfl rfl rfl
  rw [index] at found
  exact ⟨_, 2, bin, by decide, found, by decide⟩

theorem overlaps_fourAround : fourAround.Overlaps (-0.5) := by
  have bin := Axis.bin_of_value (Axis.value_of_circle (a := fourAround) rfl rfl rfl) (-1)
  rw [succ_front] at bin
  exact ⟨_, 3, bin, by decide, rfl, by decide⟩

theorem overlaps_tenBins : tenBins.Overlaps (-Float.ofBits 1) := by
  have first : Regular.index ⟨⟨10, 0, 10⟩, .id⟩ (-Float.ofBits 1) = 0 := by decide
  have bin := Axis.bin_of_value (Axis.value_of_line (a := tenBins) rfl rfl) (-1)
  have found := Axis.index_of_regular (a := tenBins) (c := .float (-Float.ofBits 1)) rfl rfl rfl
  rw [succ_front] at bin
  rw [first] at found
  exact ⟨_, 0, bin, by decide, found, by decide⟩

/-- The edge in front of the squares is above all edges in range, and the bin there holds
numbers in range. On a circle the bin in front is one of those in range, and the greatest
number below zero is rounded to the first of ten bins from there on. -/
theorem not_ordered_front :
    ((regular 4 1 9 .sqrt).Ascends ∧
      (regular 4 1 9 .sqrt).build .flow none = .ok fourSquares ∧
      fourSquares.denseEdges false = [1, 2.25, 4, 6.25, 9] ∧
      fourSquares.denseEdges true = [infinity, 1, 2.25, 4, 6.25, 9, infinity] ∧
      fourSquares.Overlaps 4) ∧
    ((regular 4 0 4 .id).Ascends ∧
      (regular 4 0 4 .id).build (Options.flow.insert .circular) none = .ok fourAround ∧
      fourAround.Overlaps (-0.5)) ∧
    (regular 10 0 10 .id).Ascends ∧ (regular 10 0 10 .id).build .flow none = .ok tenBins ∧
      tenBins.Overlaps (-Float.ofBits 1) := by
  refine ⟨⟨⟨by decide, trivial⟩, build_fourSquares, ?inner, ?outer, overlaps_fourSquares⟩,
    ⟨⟨by decide, trivial⟩, rfl, overlaps_fourAround⟩,
    ⟨by decide, trivial⟩, rfl, overlaps_tenBins⟩
  case inner => decide +kernel
  case outer => decide +kernel

end Blueprint
end Binning
