import Binning.Proofs.Composition
import Binning.Proofs.Histogram.Reductions
import Binning.Proofs.Index.Choices

/-! Sums taken apart. A sum over a range is the range, kept bin by bin, of which
the axis is folded away afterwards with all of its flow bins: they are those of
the sides that the range leaves uncut. -/
namespace Binning
open Results

namespace Index

/-- The entry sums its range. -/
def sums (entry : Index) : Bool := entry matches .slice ⟨_, _, some .sum⟩

def picks (entry : Index) : Bool := entry matches .pick _

/-- The entry with its range kept where it was summed. -/
def unsummed : Index → Index
  | .slice ⟨start, stop, some .sum⟩ => .slice ⟨start, stop, none⟩
  | entry => entry

/-- The entries that keep or sum a range. -/
def ranges (entries : List Index) : List Index := entries.filter (!·.picks)

/-- The places, among the ranges, of those that are not summed. -/
def unsummedPlaces (entries : List Index) : List Nat :=
  (List.range (ranges entries).length).filter fun d => (ranges entries)[d]?.any (!·.sums)

theorem exists_sums_of_expand {entries expanded : List Index} {rank : Nat}
    (done : expand entries rank = .ok expanded) (some_sum : ∃ entry ∈ entries, entry.sums = true) :
    ∃ entry ∈ expanded, entry.sums = true := by
  obtain ⟨entry, among, summed⟩ := some_sum
  refine ⟨entry, ?_, summed⟩
  rcases (expands_of_expand done).entries with ⟨_, rfl⟩ | ⟨before, after, n, _, rfl, rfl⟩
  · exact among
  · have named : entry ≠ ellipsis := by
      rintro rfl
      contradiction
    simp only [List.mem_append, List.mem_cons] at among ⊢
    tauto

theorem mem_ranges_of_sums {entries : List Index} {entry : Index} (among : entry ∈ entries)
    (summed : entry.sums = true) : entry ∈ ranges entries := by
  refine List.mem_filter.mpr ⟨among, ?_⟩
  cases entry with
  | slice => rfl
  | pick | ellipsis => contradiction

theorem isEllipsis_unsummed (entry : Index) : entry.unsummed.isEllipsis = entry.isEllipsis := by
  unfold unsummed
  split <;> rfl

theorem expand_map_unsummed (entries : List Index) (rank : Nat) :
    expand (entries.map unsummed) rank = (expand entries rank).map (List.map unsummed) := by
  have count : (entries.map unsummed).countP isEllipsis = entries.countP isEllipsis := by
    rw [List.countP_map]
    exact List.countP_congr fun e _ => by rw [Function.comp, isEllipsis_unsummed]
  have spread (fill : List Index) (whole : fill.map unsummed = fill) :
      (entries.map unsummed).flatMap (spread fill) =
        (entries.flatMap (spread fill)).map unsummed := by
    rw [List.flatMap_map, List.map_flatMap]
    congr 1
    funext entry
    cases entry with
    | ellipsis => exact whole.symm
    | pick => rfl
    | slice range =>
      obtain ⟨start, stop, action⟩ := range
      cases action with
      | none => rfl
      | some action => cases action <;> rfl
  unfold expand
  rw [count, List.length_map]
  by_cases single : 1 < entries.countP isEllipsis
  · simp only [if_pos single]
    rfl
  by_cases short : rank < entries.length
  · simp only [if_neg single, if_pos short]
    rfl
  by_cases named : entries.countP isEllipsis = 0 ∧ entries.length ≠ rank
  · simp only [if_neg single, if_neg short, if_pos named]
    rfl
  simp only [if_neg single, if_neg short, if_neg named]
  refine congrArg Except.ok ((spread (List.replicate (rank + 1 - entries.length) (slice {})) ?_))
  exact List.map_replicate

end Index

/-! ### One axis -/

theorem Axis.slice_one {a : Axis} {lo hi : Nat} (ordered : lo < hi) (inside : hi ≤ a.size)
    (straight : a.options.circular = false) : ∃ new, a.slice lo hi 1 = .ok new := by
  have cut : ¬ (hi ≤ lo ∨ a.size < hi ∨ 1 = 0) := by omega
  have law : ∃ law, a.sliceLaw lo hi 1 = .ok law := by
    unfold sliceLaw
    cases a.law with
    | regular =>
      simp only [straight, Nat.mod_one]
      exact ⟨_, rfl⟩
    | edges => exact ⟨_, rfl⟩
    | integer => exact ⟨_, rfl⟩
    | category => exact ⟨_, rfl⟩
  obtain ⟨law, sliced⟩ := law
  unfold slice
  rw [if_neg cut, sliced]
  exact ⟨_, rfl⟩

namespace Route
variable {a new : Axis} {lo hi : Nat}

/-- A sum over all bins and flow bins admits every slot. -/
theorem send_sum_all (fits : a.Fits) {s : Nat} (below : s < a.extent) :
    (sum a 0 a.size true true).send s = some none := by
  have has := fits.representable_indexOfSlot below
  rw [← fits.slot_indexOfSlot below, send_sum_iff fits has (Nat.zero_le _) (Nat.le_refl _)]
  rcases fits.representable_iff_cases.mp has with ⟨same, _⟩ | ⟨low, high⟩ | ⟨same, _⟩
  · exact .inr (.inl ⟨same, rfl⟩)
  · exact .inl ⟨low, high⟩
  · exact .inr (.inr ⟨same, rfl⟩)

/-- A sum over a range admits the slots that have a slot in the range. -/
theorem send_sum_iff_regroup (fits : a.Fits) (ordered : lo < hi) (inside : hi ≤ a.size)
    (cut : a.slice lo hi 1 = .ok new) {s : Nat} (below : s < a.extent) :
    (sum a lo hi (lo == 0) (hi == a.size)).send s = some none ↔
      ∃ k < new.extent,
        (regroup a new lo hi 1 (lo == 0) (hi == a.size)).send s = some (some k) := by
  have has := fits.representable_indexOfSlot below
  have new_fits := fits.slice cut
  have word := Nat.lt_of_le_of_lt a.size_le_extent fits
  have grouped (k : Int) : (regroup a new lo hi 1 (lo == 0) (hi == a.size)).index? a
      (a.indexOfSlot s) = some k ↔ a.Kept lo hi (a.indexOfSlot s) k :=
    (index?_regroup fits cut (by omega) has).trans (Axis.grouped_one_iff ordered)
  have range : (∃ k, a.Kept lo hi (a.indexOfSlot s) k) ↔
      a.Within lo hi (lo == 0) (hi == a.size) (a.indexOfSlot s) := by
    unfold Axis.Kept Axis.Within
    simp only [beq_iff_eq]
    constructor
    · rintro ⟨k, kept⟩
      omega
    · rintro (⟨low, high⟩ | ⟨same, first⟩ | ⟨same, last⟩)
      · exact ⟨a.indexOfSlot s - lo, .inl (by omega)⟩
      · exact ⟨-1, .inr (.inl ⟨rfl, first, same⟩)⟩
      · exact ⟨hi - lo, .inr (.inr ⟨rfl, last, same⟩)⟩
  have lands : (regroup a new lo hi 1 (lo == 0) (hi == a.size)).Lands a := lands_regroup new_fits
  have slot := fits.slot_indexOfSlot below
  have sends : (sum a lo hi (lo == 0) (hi == a.size)).send (a.slot (a.indexOfSlot s)) = some none ↔
      a.Within lo hi (lo == 0) (hi == a.size) (a.indexOfSlot s) :=
    send_sum_iff fits has (Nat.le_of_lt ordered) inside
  rw [slot] at sends
  rw [sends, ← range]
  constructor
  · rintro ⟨k, kept⟩
    have goes := (grouped k).mpr kept
    have taken : new.representable k = true := ((index?_regroup_iff fits cut has).mp goes).1
    refine ⟨new.slot k, new_fits.slot_lt taken, ?_⟩
    have sent := (send_eq_some_iff lands fits rfl new_fits has taken).mpr goes
    rwa [slot] at sent
  · rintro ⟨k, small, sent⟩
    refine ⟨new.indexOfSlot k, (grouped _).mp ?_⟩
    have taken := new_fits.representable_indexOfSlot small
    rw [← send_eq_some_iff lands fits rfl new_fits has taken, slot,
      new_fits.slot_indexOfSlot small]
    exact sent

/-- A fold that admits what has a slot does what keeping and folding do. -/
theorem later_of_send {admits other : Nat → Bool} {target : Nat → Option Nat}
    (lands : (keep target new).Lands a)
    (sends : ∀ s < a.extent, (fold admits).send s = some none ↔
      ∃ k < new.extent, (keep target new).send s = some (some k))
    (all : ∀ k < new.extent, (fold other).send k = some none) :
    ∀ s < a.extent, admits s = (target s).any other := by
  intro s below
  have same := sends s below
  simp only [send, Option.ite_none_right_eq_some, and_true, Option.map_eq_some_iff,
    Option.some.injEq, exists_eq_right] at same all
  rw [Bool.eq_iff_iff, same]
  cases found : target s with
  | none => simp
  | some k =>
    obtain ⟨_, kept, small⟩ := lands s below k (by simp [send, found])
    cases kept
    simp [small, all k small]

end Route

/-! ### All axes -/

namespace Index
open Route

/-- The routes of an axis under an entry and under the entry with its range kept. -/
inductive Unsums (a : Axis) : Index → Route → Route → Prop where
  | pick {place : Loc} {admits : Nat → Bool} : Unsums a (.pick place) (.fold admits) (.fold admits)
  | sum {start stop : Option Loc} {lo hi : Nat} {new : Axis} :
      lo < hi → hi ≤ a.size → a.slice lo hi 1 = .ok new →
        Unsums a (.slice ⟨start, stop, some .sum⟩) (.sum a lo hi (lo == 0) (hi == a.size))
          (.regroup a new lo hi 1 (lo == 0) (hi == a.size))
  | keep {range : Slice} {target : Nat → Option Nat} {new : Axis} :
      (Index.slice range).sums = false →
        Unsums a (.slice range) (.keep target new) (.keep target new)

/-- Two computations fail alike, or both of them give results. -/
inductive Alike {ε α β : Type} (R : α → β → Prop) : Except ε α → Except ε β → Prop where
  | ok {a : α} {b : β} : R a b → Alike R (.ok a) (.ok b)
  | error (e : ε) : Alike R (.error e) (.error e)

theorem Alike.self {ε α : Type} {R : α → α → Prop} {x : Except ε α}
    (related : ∀ a, x = .ok a → R a a) : Alike R x x := by
  cases x with
  | error e => exact .error e
  | ok a => exact .ok (related a rfl)

theorem Alike.imp {ε α β : Type} {R S : α → β → Prop} {x : Except ε α} {y : Except ε β}
    (alike : Alike R x y) (related : ∀ a b, R a b → S a b) : Alike S x y := by
  cases alike with
  | ok both => exact .ok (related _ _ both)
  | error e => exact .error e

theorem Alike.bind {ε α β γ δ : Type} {R : α → β → Prop} {S : γ → δ → Prop} {x : Except ε α}
    {y : Except ε β} {f : α → Except ε γ} {g : β → Except ε δ} (alike : Alike R x y)
    (next : ∀ a b, R a b → Alike S (f a) (g b)) : Alike S (x >>= f) (y >>= g) := by
  cases alike with
  | ok related => exact next _ _ related
  | error e => exact .error e

/-- What fails first fails alike, and what goes on goes on from the same. -/
theorem Alike.bind_self {ε α γ δ : Type} {S : γ → δ → Prop} {x : Except ε α} {f : α → Except ε γ}
    {g : α → Except ε δ} (next : ∀ a, Alike S (f a) (g a)) : Alike S (x >>= f) (x >>= g) := by
  cases x with
  | error e => exact .error e
  | ok a => exact next a

theorem Alike.of_map_eq {ε α β γ : Type} {f : α → γ} {g : β → γ} {x : Except ε α} {y : Except ε β}
    (same : g <$> y = f <$> x) : Alike (fun a b => g b = f a) x y := by
  cases x with
  | error e =>
    cases y <;> cases same
    exact .error e
  | ok a =>
    cases y with
    | error => cases same
    | ok b => exact .ok (Except.ok.inj same)

theorem unsums_self {a : Axis} {entry : Index} {r : Route} (single : entry.sums = false)
    (done : entry.route a = .ok r) : Unsums a entry r r := by
  cases entry with
  | ellipsis => simp only [route, throw_eq_ok] at done
  | pick place =>
    simp only [route, bind_eq_ok, ite_throw_eq_ok, pure_eq_ok] at done
    obtain ⟨i, _, _, rfl⟩ := done
    exact .pick
  | slice range =>
    simp only [route, bind_eq_ok, guard_eq_ok] at done
    obtain ⟨lo, _, hi, _, _, done⟩ := done
    split at done
    · rename_i summed
      obtain ⟨start, stop, _⟩ := range
      subst summed
      contradiction
    · simp only [throw_eq_ok] at done
    · simp only [bind_eq_ok, pure_eq_ok] at done
      obtain ⟨new, _, rfl⟩ := done
      exact .keep single
    · simp only [bind_eq_ok, pure_eq_ok] at done
      obtain ⟨new, _, rfl⟩ := done
      exact .keep single

theorem alike_route {a : Axis} (fits : a.Fits) (entry : Index)
    (straight : entry.sums = true → a.options.circular = false) :
    Alike (Unsums a entry) (entry.route a) (entry.unsummed.route a) := by
  cases single : entry.sums with
  | false =>
    have same : entry.unsummed = entry := by
      unfold unsummed
      split
      · contradiction
      · rfl
    rw [same]
    exact .self fun r done => unsums_self single done
  | true =>
    obtain ⟨start, stop, rfl⟩ : ∃ start stop, entry = .slice ⟨start, stop, some .sum⟩ := by
      unfold sums at single
      split at single
      · exact ⟨_, _, rfl⟩
      · contradiction
    simp only [unsummed, route]
    cases from_lo : bound start a 0 with
    | error e => exact .error e
    | ok lo =>
    cases to_hi : bound stop a a.size with
    | error e => exact .error e
    | ok hi =>
    by_cases ordered : hi ≤ lo
    · simp only [bind, Except.bind, if_pos ordered]
      exact .error _
    · have ranges : Ranges a start stop lo hi :=
        ⟨bounds_of_bound fits from_lo, bounds_of_bound fits to_hi, Nat.lt_of_not_le ordered⟩
      obtain ⟨new, cut⟩ := Axis.slice_one ranges.lt ranges.le_size (straight rfl)
      simp only [bind, Except.bind, if_neg ordered, cut]
      exact .ok (.sum ranges.lt ranges.le_size cut)

/-- The routes of all axes under their entries and with the ranges kept. -/
inductive UnsumsAll : List Axis → List Index → List Route → List Route → Prop where
  | nil : UnsumsAll [] [] [] []
  | cons {a : Axis} {entry : Index} {r kept : Route} {axes : List Axis} {entries : List Index}
      {whole first : List Route} :
      Unsums a entry r kept → UnsumsAll axes entries whole first →
        UnsumsAll (a :: axes) (entry :: entries) (r :: whole) (kept :: first)

theorem alike_routes {axes : List Axis} {entries : List Index}
    (same : entries.length = axes.length) (fits : ∀ a ∈ axes, a.Fits)
    (straight : ∀ ae ∈ axes.zip entries, ae.2.sums = true → ae.1.options.circular = false) :
    Alike (UnsumsAll axes entries) ((axes.zip entries).mapM fun (a, entry) => route a entry)
      ((axes.zip (entries.map unsummed)).mapM fun (a, entry) => route a entry) := by
  induction axes generalizing entries with
  | nil =>
    rw [List.length_eq_zero_iff.mp same]
    exact .ok .nil
  | cons a axes ih =>
    cases entries with
    | nil => contradiction
    | cons entry entries =>
      obtain ⟨fit, fits⟩ := List.forall_mem_cons.mp fits
      obtain ⟨head, tail⟩ := List.forall_mem_cons.mp straight
      have rest := ih (Nat.succ.inj same) fits tail
      rw [List.map_cons, List.zip_cons_cons, List.zip_cons_cons, List.mapM_cons, List.mapM_cons]
      refine Alike.bind (alike_route fit entry head) fun r kept unsums => ?_
      exact rest.bind fun whole first all => .ok (.cons unsums all)

/-- The ranges that are summed fold, and the others stay as they are. -/
def folds (axes : List Axis) (ranges : List Index) : List Route :=
  List.zipWith (fun a entry => if entry.sums then .sum a 0 a.size true true else .identity a)
    axes ranges

namespace UnsumsAll
variable {axes : List Axis} {entries : List Index} {whole first : List Route}

theorem length_stay (unsums : UnsumsAll axes entries whole first) :
    (Reduction.stay first).length = (ranges entries).length := by
  induction unsums with
  | nil => rfl
  | cons head _ ih =>
    cases head with
    | pick => exact ih
    | sum | keep => exact congrArg Nat.succ ih

theorem composes (unsums : UnsumsAll axes entries whole first) (fits : ∀ a ∈ axes, a.Fits) :
    Reduction.Composes axes whole first (folds (Reduction.stay first) (ranges entries)) := by
  induction unsums with
  | nil => exact .nil
  | cons head _ ih =>
    obtain ⟨fit, fits⟩ := List.forall_mem_cons.mp fits
    cases head with
    | pick => exact .fold (fun _ _ => rfl) (ih fits)
    | sum ordered inside cut =>
      have new_fits := fit.slice cut
      refine .later (later_of_send (lands_regroup new_fits) ?_ ?_) (ih fits)
      · intro s below
        exact send_sum_iff_regroup fit ordered inside cut below
      · intro k small
        exact send_sum_all new_fits small
    | keep single =>
      change Reduction.Composes _ _ _ ((if _ then _ else _) :: _)
      rw [if_neg (by simp [single])]
      exact .keep (ih fits)

end UnsumsAll
theorem mem_unsummedPlaces {entries : List Index} {d : Nat} :
    d ∈ unsummedPlaces entries ↔ ∃ entry, (ranges entries)[d]? = some entry ∧
      entry.sums = false := by
  rw [unsummedPlaces, List.mem_filter, List.mem_range, Option.any_eq_true]
  constructor
  · rintro ⟨_, entry, listed, single⟩
    exact ⟨entry, listed, by simpa using single⟩
  · rintro ⟨entry, listed, single⟩
    exact ⟨(List.getElem?_eq_some_iff.mp listed).1, entry, listed, by simp [single]⟩

section
variable {axes : List Axis} {entries : List Index} (same : axes.length = (ranges entries).length)
include same

theorem folds_eq_projections :
    folds axes (ranges entries) = Histogram.projections axes (unsummedPlaces entries) := by
  apply List.ext_getElem
  · simp [folds, Histogram.projections, same]
  · intro d below _
    rw [folds, List.length_zipWith] at below
    have listed : (ranges entries)[d]? = some _ := List.getElem?_eq_getElem (by omega)
    simp only [folds, Histogram.projections, List.getElem_zipWith, List.getElem_mapIdx,
      mem_unsummedPlaces, listed, Option.some.injEq, exists_eq_left']
    cases (ranges entries)[d].sums <;> rfl

theorem staying_folds :
    Reduction.staying (folds axes (ranges entries)) = unsummedPlaces entries := by
  have length : (folds axes (ranges entries)).length = (ranges entries).length := by
    simp [folds, same]
  rw [Reduction.staying, unsummedPlaces, length]
  apply List.filter_congr
  intro d among
  have below := List.mem_range.mp among
  rw [folds, List.getElem?_zipWith, List.getElem?_eq_getElem below,
    List.getElem?_eq_getElem (same ▸ below)]
  cases summed : (ranges entries)[d].sums <;> simp [summed, Route.sum, Route.identity, Route.axis?]

end

end Index
end Binning
