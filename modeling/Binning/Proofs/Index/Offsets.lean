import Binning.Proofs.Index.Picks

/-! Places that are shifted from an anchor. The shifts are added up before the anchor is
known, each partial sum as a signed word, and the anchor is added to their total as such a
word too. While all of these are signed words the place is exact: it has a slot if the exact
sum has one, and a bound holds the exact sum within the bins. One sum that is no word stops
the computation, also where the place would be in range or be held. -/
namespace Binning
open Results

namespace Loc

inductive Shift where
  | plus (k : Int)
  | minus (k : Int)

namespace Shift

def apply (l : Loc) : Shift → Except Error Loc
  | plus k => l.plus k
  | minus k => l.minus k

/-- The shift is by a signed word, up or down. -/
def ByWord : Shift → Prop
  | plus k | minus k => Word64.Signed k

def amount : Shift → Int
  | plus k => k
  | minus k => -k

theorem apply_eq (l : Loc) (s : Shift) :
    s.apply l = if Word64.Signed (l.offset + s.amount) then .ok ⟨l.anchor, l.offset + s.amount⟩
      else .error .overflow := by
  have checked_eq (i : Int) :
      (do return { l with offset := ← checked i } : Except Error Loc) =
        if Word64.Signed i then .ok ⟨l.anchor, i⟩ else .error .overflow := by
    unfold checked
    split <;> rfl
  cases s with
  | plus k => exact checked_eq _
  | minus k => exact checked_eq _

end Shift

/-- The place that shifts lead to from an anchor, one after the other. -/
def shifted (anchor : Anchor) (shifts : List Shift) : Except Error Loc :=
  shifts.foldlM Shift.apply ⟨anchor, 0⟩

def total (shifts : List Shift) : Int := (shifts.map Shift.amount).sum

/-- How far the shifts go in all, whatever their direction. -/
def distance (shifts : List Shift) : Nat := (shifts.map (·.amount.natAbs)).sum

/-- Every partial sum is a signed word. -/
def InWords (shifts : List Shift) : Prop :=
  ∀ before, before <+: shifts → Word64.Signed (total before)

variable {a : Axis} {anchor : Anchor} {shift : Shift} {shifts : List Shift} {l : Loc} {base : Int}

@[simp] theorem total_nil : total [] = 0 := rfl

@[simp] theorem total_cons (shift : Shift) (shifts : List Shift) :
    total (shift :: shifts) = shift.amount + total shifts := List.sum_cons

@[simp] theorem distance_cons (shift : Shift) (shifts : List Shift) :
    distance (shift :: shifts) = shift.amount.natAbs + distance shifts := List.sum_cons

/-! ### Shifts -/

theorem forall_prefix_cons {p : List Shift → Prop} :
    (∀ before, before <+: shift :: shifts → p before) ↔
      p [] ∧ ∀ before, before <+: shifts → p (shift :: before) := by
  simp only [List.prefix_cons_iff]
  constructor
  · exact fun each => ⟨each [] (.inl rfl), fun before cut => each _ (.inr ⟨before, rfl, cut⟩)⟩
  · rintro ⟨first, each⟩ _ (rfl | ⟨before, rfl, cut⟩)
    · exact first
    · exact each before cut

/-- From any offset, the shifts are followed while its sums with the partial totals are words. -/
theorem foldlM_apply (anchor : Anchor) (offset : Int) (start : Word64.Signed offset)
    (shifts : List Shift) :
    ((∀ before, before <+: shifts → Word64.Signed (offset + total before)) →
      shifts.foldlM Shift.apply ⟨anchor, offset⟩ = .ok ⟨anchor, offset + total shifts⟩) ∧
    ((¬ ∀ before, before <+: shifts → Word64.Signed (offset + total before)) →
      shifts.foldlM Shift.apply ⟨anchor, offset⟩ = .error .overflow) := by
  induction shifts generalizing offset with
  | nil =>
    constructor
    · intro _
      rw [total_nil, Int.add_zero]
      rfl
    · intro leaves
      refine absurd ?_ leaves
      intro before none
      rw [List.prefix_nil.mp none, total_nil, Int.add_zero]
      exact start
  | cons shift shifts ih =>
    rw [List.foldlM_cons, Shift.apply_eq, forall_prefix_cons, total_nil, Int.add_zero]
    simp only [total_cons, ← Int.add_assoc]
    by_cases word : Word64.Signed (offset + shift.amount)
    · rw [if_pos word, and_iff_right start]
      exact ih _ word
    · rw [if_neg word]
      refine ⟨fun both => absurd ?_ word, fun _ => rfl⟩
      have first := both.2 [] List.nil_prefix
      rwa [total_nil, Int.add_zero] at first

theorem signed_zero : Word64.Signed 0 := by decide

theorem shifted_of_inWords (words : InWords shifts) :
    shifted anchor shifts = .ok ⟨anchor, total shifts⟩ := by
  have followed := (foldlM_apply anchor 0 signed_zero shifts).1
  simp only [Int.zero_add] at followed
  exact followed words

theorem shifted_of_not_inWords (leaves : ¬ InWords shifts) :
    shifted anchor shifts = .error .overflow := by
  have stopped := (foldlM_apply anchor 0 signed_zero shifts).2
  simp only [Int.zero_add] at stopped
  exact stopped leaves

theorem natAbs_total_le (shifts : List Shift) : (total shifts).natAbs ≤ distance shifts := by
  induction shifts with
  | nil => exact Nat.le_refl 0
  | cons shift shifts ih =>
    rw [total_cons, distance_cons]
    omega

theorem distance_le_of_prefix {before : List Shift} (cut : before <+: shifts) :
    distance before ≤ distance shifts := by
  obtain ⟨after, rfl⟩ := cut
  rw [distance, distance, List.map_append, List.sum_append]
  exact Nat.le_add_right ..

/-- Shifts that do not go farther than the largest word from an anchor stay within words. -/
theorem inWords_of_distance (short : base.natAbs + distance shifts < 2 ^ 63) :
    InWords shifts ∧ Word64.Signed (base + total shifts) := by
  unfold InWords Word64.Signed Word64.minSigned Word64.maxSigned
  constructor
  · intro before cut
    have part := distance_le_of_prefix cut
    have size := natAbs_total_le before
    omega
  · have size := natAbs_total_le shifts
    omega

/-! ### Places -/

theorem resolve_of_anchor_error {e : IndexError} (lost : resolveAnchor l.anchor a = .error e) :
    l.resolve a = .error (.index e) := by
  rw [resolve, lost]
  rfl

theorem resolve_of_anchor (anchored : resolveAnchor l.anchor a = .ok base) :
    l.resolve a = if Word64.Signed (base + l.offset) then .ok (base + l.offset)
      else .error .overflow := by
  rw [resolve, anchored]
  rfl

/-- Where a place is whose anchor is at `base`. -/
structure Settles (a : Axis) (l : Loc) (base : Int) : Prop where
  resolved : Word64.Signed (base + l.offset) → l.resolve a = .ok (base + l.offset)
  overflows : ¬ Word64.Signed (base + l.offset) → l.resolve a = .error .overflow
  /-- An entry has a slot exactly if the exact sum has one. -/
  picked : ∀ route, Index.route a (.pick l) = .ok route ↔
    a.representable (base + l.offset) = true ∧ .select (a.slot (base + l.offset)) = route
  /-- A bound holds the exact sum within the bins. -/
  bounded : ∀ default, Word64.Signed (base + l.offset) →
    Index.bound (some l) a default = .ok (max 0 (min (a.size : Int) (base + l.offset))).toNat
  unbounded : ∀ default, ¬ Word64.Signed (base + l.offset) →
    Index.bound (some l) a default = .error .overflow

theorem settles_of_anchor (fits : a.Fits) (anchored : resolveAnchor l.anchor a = .ok base) :
    Settles a l base := by
  have resolve := resolve_of_anchor anchored
  refine ⟨fun word => ?_, fun leaves => ?_, fun route => ?_, fun default word => ?_,
    fun default leaves => ?_⟩
  · rw [resolve, if_pos word]
  · rw [resolve, if_neg leaves]
  · rw [Index.route, resolve]
    by_cases word : Word64.Signed (base + l.offset)
    · simp only [if_pos word, bind_eq_ok, Except.ok.injEq, exists_eq_left', ite_throw_eq_ok,
        pure_eq_ok]
    · rw [if_neg word]
      constructor
      · intro ended
        cases ended
      · intro both
        exact absurd (fits.signed_of_representable both.1) word
  · rw [Index.bound, resolve, if_pos word, fits.beyond_eq]
    rfl
  · rw [Index.bound, resolve, if_neg leaves]
    rfl

/-- What shifts of an anchor lead to on an axis. -/
structure Follows (a : Axis) (anchor : Anchor) (shifts : List Shift) : Prop where
  built : InWords shifts → shifted anchor shifts = .ok ⟨anchor, total shifts⟩
  stopped : ¬ InWords shifts → shifted anchor shifts = .error .overflow
  lost : ∀ e, resolveAnchor anchor a = .error e →
    (Loc.mk anchor (total shifts)).resolve a = .error (.index e)
  settles : ∀ base, resolveAnchor anchor a = .ok base → Settles a ⟨anchor, total shifts⟩ base
  /-- Nothing overflows where the numbers, whatever their signs, add up to a word. -/
  short : ∀ base, resolveAnchor anchor a = .ok base → base.natAbs + distance shifts < 2 ^ 63 →
    InWords shifts ∧ Word64.Signed (base + total shifts)

/-- Shifted places are exact as far as signed words go. -/
theorem follows_of_fits (fits : a.Fits) (anchor : Anchor) (shifts : List Shift) :
    Follows a anchor shifts where
  built := shifted_of_inWords
  stopped := shifted_of_not_inWords
  lost := fun _ lost => resolve_of_anchor_error lost
  settles := fun _ anchored => settles_of_anchor fits anchored
  short := fun _ _ short => inWords_of_distance short

/-- Three bins from zero, with both flow bins. -/
def threeBins : Axis := ⟨.integer ⟨0, 3⟩, .flow, none⟩

theorem follows_threeBins :
    threeBins.Fits ∧ Follows threeBins .overflow [.minus (2 ^ 63 - 1), .plus (2 ^ 63 - 2)] := by
  have fits : threeBins.Fits := by
    unfold Axis.Fits
    decide
  exact ⟨fits, follows_of_fits fits _ _⟩

/-- One more than the largest word is not held within the bins. -/
theorem not_bounds_beyond_words :
    ¬ ∀ (a : Axis) (anchor : Anchor) (shifts : List Shift) (base : Int) (default : Nat), a.Fits →
      (∀ shift ∈ shifts, shift.ByWord) → resolveAnchor anchor a = .ok base → Word64.Signed base →
        ∃ l, shifted anchor shifts = .ok l ∧ Index.bound (some l) a default =
          .ok (max 0 (min (a.size : Int) (base + total shifts))).toNat := by
  intro bounds
  have fits : threeBins.Fits := by
    unfold Axis.Fits
    decide
  have words : ∀ shift ∈ [Shift.plus 1], shift.ByWord := by
    intro shift among
    rw [List.mem_singleton.mp among]
    change Word64.Signed 1
    decide
  obtain ⟨l, built, bound⟩ :=
    bounds threeBins (.bin (2 ^ 63 - 1)) [.plus 1] _ 0 fits words rfl (by decide)
  cases built
  cases bound

end Loc
end Binning
