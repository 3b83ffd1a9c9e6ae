import Binning.Proofs.Axis.EdgeBins
import Binning.Proofs.Binary64.Neighbours

/-! Growing explicit edges. A number beyond the edges brings one more edge on its side,
so that it lies in a bin, and the edges that stood there stay as they are. Edges that
have grown may end at an infinity. -/
namespace Binning

namespace Binary64
variable {x : Float}

theorem least_le (defined : x.isNaN = false) (y : Float) : least x y ≤ x := by
  rw [least, defined]
  split
  · contradiction
  split
  · exact le_of_lt ‹_›
  · exact (le_iff_level defined defined).mpr le_rfl

theorem le_greatest (defined : x.isNaN = false) (y : Float) : x ≤ greatest x y := by
  rw [greatest, defined]
  split
  · contradiction
  split
  · exact le_of_lt ‹_›
  · exact (le_iff_level defined defined).mpr le_rfl

theorem not_lt_of_isNaN (nan : x.isNaN = true) (y : Float) : ¬ x < y := by
  intro below
  rw [(defined_of_lt below).1] at nan
  contradiction

end Binary64

namespace Edges
variable {e grown : Edges} {x : Float} {i : Int} {front : Nat}

/-- Edges from two up, each below all that follow it. -/
structure Rising (e : Edges) : Prop where
  sized : 0 < e.size
  ascends : e.list.Pairwise (· < ·)

theorem Ordered.rising (ordered : e.Ordered) : e.Rising := ⟨ordered.sized, ordered.ascends⟩

/-! ### Lookup -/

/-- The index of a number counts the edges in front of those that it does not reach. -/
theorem index_of_append (before after : List Float) (defined : x.isNaN = false)
    (reached : ∀ y ∈ before, y ≤ x) (beyond : ∀ y ∈ after.head?, ¬ y ≤ x) :
    index ⟨before ++ after⟩ x = before.length - 1 := by
  have passed : ∀ y ∈ before, decide (y ≤ x) = true := by simpa using reached
  have none_after : after.takeWhile (fun y => decide (y ≤ x)) = [] := by
    cases after with
    | nil => rfl
    | cons y rest => simpa using beyond y rfl
  rw [index, defined, List.takeWhile_append_of_pos passed, none_after, List.append_nil]
  rfl

/-- A number in front of the edges is below all of them. -/
theorem Rising.lt_of_index_neg (rising : e.Rising) (defined : x.isNaN = false)
    (low : e.index x < 0) : ∀ y ∈ e.list, x < y := by
  obtain ⟨list⟩ := e
  obtain ⟨sized, ascends⟩ := rising
  cases list with
  | nil => contradiction
  | cons y rest =>
    cases rest with
    | nil => contradiction
    | cons z rest =>
    have above := List.pairwise_cons.mp ascends
    have defined_y := (Binary64.defined_of_lt (above.1 z List.mem_cons_self)).1
    have first : ¬ y ≤ x := by
      intro reached
      rw [index, defined, List.takeWhile_cons_of_pos (by simpa using reached)] at low
      simp only [Bool.false_eq_true, if_false, List.length_cons] at low
      omega
    have below := (Binary64.lt_iff_not_le defined defined_y).mpr first
    intro w among
    rcases List.mem_cons.mp among with rfl | later
    · exact below
    · exact Binary64.lt_of_lt_of_le below (Binary64.le_of_lt (above.1 w later))

/-- A number behind the edges reaches all of them. -/
theorem Rising.le_of_size_le_index (rising : e.Rising) (defined : x.isNaN = false)
    (high : e.size ≤ e.index x) : ∀ y ∈ e.list, y ≤ x := by
  have sized := rising.sized
  have most := (List.takeWhile_prefix (fun y => decide (y ≤ x)) (l := e.list))
  have all : e.list.takeWhile (fun y => decide (y ≤ x)) = e.list := by
    apply most.eq_of_length_le
    rw [index, defined] at high
    unfold size at *
    simp only [Bool.false_eq_true, if_false] at high
    omega
  intro y among
  rw [← all] at among
  simpa using List.mem_takeWhile_imp among

/-! ### Growth -/

/-- What growth to include a finite number makes of the edges. -/
inductive Extends (e : Edges) (x : Float) : Int → Nat → Edges → Prop
  | within : 0 ≤ e.index x → e.index x < e.size → Extends e x (e.index x) 0 e
  | front {a : Float} : e.index x < 0 → (∀ y ∈ e.list, x < y) → a ≤ x →
      Extends e x 0 1 ⟨a :: e.list⟩
  | behind {a : Float} : e.size ≤ e.index x → (∀ y ∈ e.list, y ≤ x) → x < a →
      Extends e x e.size 0 ⟨e.list ++ [a]⟩

theorem Rising.extends (rising : e.Rising) (finite : Binary64.isFinite x = true) :
    e.Extends x (e.grow x).1 (e.grow x).2.1 (e.grow x).2.2 := by
  have defined := Binary64.not_isNaN_of_isFinite finite
  simp only [grow, finite, Bool.not_true, Bool.false_eq_true, if_false]
  split
  · rename_i low
    exact .front low (rising.lt_of_index_neg defined low) (Binary64.least_le defined _)
  rename_i nonneg
  split
  · exact .within (by omega) ‹_›
  · rename_i high
    have next := Binary64.lt_nextUp finite
    have bounds := index_bounds rising.sized x
    have last : e.index x = e.size := by omega
    rw [last]
    exact .behind (by omega) (rising.le_of_size_le_index defined (by omega))
      (Binary64.lt_of_lt_of_le next (Binary64.le_greatest (Binary64.defined_of_lt next).2 _))

theorem Extends.rising (extended : e.Extends x i front grown) (rising : e.Rising) :
    grown.Rising := by
  obtain ⟨sized, ascends⟩ := rising
  cases extended with
  | within => exact ⟨sized, ascends⟩
  | front _ below reached =>
    refine ⟨?_, List.pairwise_cons.mpr ⟨fun y among => ?_, ascends⟩⟩
    · simp only [size, List.length_cons] at *
      omega
    · exact Binary64.lt_of_le_of_lt reached (below y among)
  | behind _ reached below =>
    refine ⟨?_, List.pairwise_append.mpr ⟨ascends, List.pairwise_singleton _ _, ?_⟩⟩
    · simp only [size, List.length_append] at *
      omega
    · intro y among z last
      obtain rfl := List.mem_singleton.mp last
      exact Binary64.lt_of_le_of_lt (reached y among) below

/-- The number lies in the bin of its index. -/
theorem Extends.index_eq (extended : e.Extends x i front grown) (rising : e.Rising)
    (defined : x.isNaN = false) : 0 ≤ i ∧ i < grown.size ∧ grown.index x = i := by
  have sized := rising.sized
  have length : e.list.length = e.size + 1 := by
    unfold size at *
    omega
  cases extended with
  | within low high => exact ⟨low, high, rfl⟩
  | @front a _ below reached =>
    have behind : ∀ y ∈ e.list.head?, ¬ y ≤ x := by
      intro y first reached
      exact Binary64.lt_irrefl x (Binary64.lt_of_lt_of_le (below y (List.mem_of_mem_head? first))
        reached)
    refine ⟨Int.le_refl 0, ?_, ?_⟩
    · simp only [size, List.length_cons]
      omega
    · exact index_of_append [a] _ defined (by simpa using reached) behind
  | @behind a _ reached below =>
    have beyond : ∀ y ∈ [a].head?, ¬ y ≤ x := by
      rintro y ⟨rfl⟩ reached
      exact Binary64.lt_irrefl x (Binary64.lt_of_lt_of_le below reached)
    refine ⟨by omega, ?_, ?_⟩
    · simp only [size, List.length_append, List.length_singleton]
      omega
    · rw [index_of_append _ [a] defined reached beyond]
      omega

/-- An edge is added exactly if the number is out of range. -/
theorem Extends.size_eq_iff (extended : e.Extends x i front grown) (rising : e.Rising) :
    grown.size = e.size ↔ 0 ≤ e.index x ∧ e.index x < e.size := by
  have sized := rising.sized
  cases extended with
  | within low high => exact ⟨fun _ => ⟨low, high⟩, fun _ => rfl⟩
  | front low =>
    simp only [size, List.length_cons] at *
    omega
  | behind high =>
    simp only [size, List.length_append, List.length_singleton] at *
    omega

theorem Extends.eq_of_size (extended : e.Extends x i front grown) (rising : e.Rising)
    (same : grown.size = e.size) : i = e.index x ∧ front = 0 := by
  obtain ⟨low, high⟩ := (extended.size_eq_iff rising).mp same
  cases extended with
  | within => exact ⟨rfl, rfl⟩
  | front => omega
  | behind => omega

/-- A bin is counted in front exactly if an edge is added there. -/
theorem Extends.front_eq_one_iff (extended : e.Extends x i front grown) (rising : e.Rising) :
    front = 1 ↔ ∃ a, grown.list = a :: e.list := by
  cases extended with
  | within => simp
  | front => simp
  | @behind a _ reached below =>
    obtain ⟨list⟩ := e
    obtain ⟨sized, ascends⟩ := rising
    refine ⟨nofun, ?_⟩
    rintro ⟨b, same⟩
    match list, sized with
    | c :: d :: rest, _ =>
      -- shifted by one place, the first two edges would be the same
      obtain ⟨-, rfl, -⟩ : c = b ∧ d = c ∧ rest ++ [a] = d :: rest := by simpa using same
      have apart := (List.pairwise_cons.mp ascends).1 d List.mem_cons_self
      exact absurd apart (Binary64.lt_irrefl d)

theorem grow_of_not_finite (unbounded : Binary64.isFinite x = false) :
    e.grow x = (if x < 0 then -1 else (e.size : Int), 0, e) := by
  simp [grow, unbounded]

theorem Rising.grow (rising : e.Rising) (x : Float) : (e.grow x).2.2.Rising := by
  cases finite : Binary64.isFinite x with
  | true => exact (rising.extends finite).rising rising
  | false => rwa [grow_of_not_finite finite]

/-! ### Runs -/

/-- Grow to include one number after another. -/
def growAll (e : Edges) (xs : List Float) : Edges := xs.foldl (fun e x => (e.grow x).2.2) e

@[simp] theorem growAll_nil (e : Edges) : e.growAll [] = e := rfl

@[simp] theorem growAll_cons (e : Edges) (x : Float) (xs : List Float) :
    e.growAll (x :: xs) = (e.grow x).2.2.growAll xs := rfl

theorem Rising.growAll (rising : e.Rising) (xs : List Float) : (e.growAll xs).Rising := by
  induction xs generalizing e with
  | nil => exact rising
  | cons x xs ih => exact ih (rising.grow x)

/-- What the edges are after growth to include `x`, which is given bin `i`. -/
structure Accommodates (e : Edges) (x : Float) (i : Int) (front : Nat) (grown : Edges) :
    Prop where
  ascends : grown.list.Pairwise (· < ·)
  /-- The edges are those that were there, and at most one more at an end. -/
  kept : grown.list = e.list ∨ (∃ a, grown.list = a :: e.list) ∨ ∃ a, grown.list = e.list ++ [a]
  front : front ≤ 1 ∧ (front = 1 ↔ ∃ a, grown.list = a :: e.list)
  within : 0 ≤ e.index x → e.index x < e.size → grown = e
  finite : Binary64.isFinite x = true → 0 ≤ i ∧ i < grown.size ∧ grown.index x = i
  unbounded : Binary64.isFinite x = false → grown = e
  below : x = -Binary64.infinity → i = -1
  beyond : x.isNaN = true ∨ x = Binary64.infinity → i = e.size
  /-- Between finite edges the bin is that of the lookup, also for what is not finite. -/
  bounded : e.Ordered → Binary64.isFinite x = false → e.index x = i

theorem Extends.accommodates (extended : e.Extends x i front grown) (rising : e.Rising)
    (finite : Binary64.isFinite x = true) : e.Accommodates x i front grown := by
  have defined := Binary64.not_isNaN_of_isFinite finite
  have bounded : ¬ Binary64.isFinite x = false := by simp [finite]
  refine ⟨(extended.rising rising).ascends, ?kept, ⟨?front, extended.front_eq_one_iff rising⟩,
    ?within, fun _ => extended.index_eq rising defined, fun h => absurd h bounded, ?below, ?beyond,
    fun _ h => absurd h bounded⟩
  case kept =>
    cases extended with
    | within => exact .inl rfl
    | front => exact .inr (.inl ⟨_, rfl⟩)
    | behind => exact .inr (.inr ⟨_, rfl⟩)
  case front => cases extended <;> decide
  case within =>
    intro low high
    cases extended with
    | within => rfl
    | front => omega
    | behind => omega
  case below =>
    rintro rfl
    contradiction
  case beyond =>
    rintro (nan | rfl)
    · rw [defined] at nan
      contradiction
    · contradiction

theorem Rising.accommodates (rising : e.Rising) (x : Float) :
    e.Accommodates x (e.grow x).1 (e.grow x).2.1 (e.grow x).2.2 := by
  cases finite : Binary64.isFinite x with
  | true => exact (rising.extends finite).accommodates rising finite
  | false =>
    have bounded : ¬ Binary64.isFinite x = true := by simp [finite]
    rw [grow_of_not_finite finite]
    refine ⟨rising.ascends, .inl rfl, by simp, fun _ _ => rfl, fun h => absurd h bounded,
      fun _ => rfl, ?below, ?beyond, fun ordered _ => ?bounded⟩
    case below =>
      rintro rfl
      rfl
    case beyond =>
      rintro (nan | rfl)
      · exact if_neg (Binary64.not_lt_of_isNaN nan 0)
      · rfl
    case bounded =>
      cases nan : x.isNaN with
      | true => rw [index, nan, if_neg (Binary64.not_lt_of_isNaN nan 0), if_pos rfl]
      | false =>
        rcases Binary64.cases_of_defined nan with ⟨p, found⟩ | rfl | rfl
        · exact absurd (Option.isSome_of_eq_some found) bounded
        · exact ordered.index_infinity
        · exact ordered.index_neg_infinity

/-- The edges that were there stand together among those that are there later. -/
theorem Rising.infix_growAll (rising : e.Rising) (xs : List Float) :
    e.list <:+: (e.growAll xs).list := by
  induction xs generalizing e with
  | nil => exact List.infix_rfl
  | cons x xs ih =>
    refine List.IsInfix.trans ?_ (ih (rising.grow x))
    rcases (rising.accommodates x).kept with same | ⟨a, added⟩ | ⟨a, added⟩
    · rw [same]
    · rw [added]
      exact List.infix_cons List.infix_rfl
    · rw [added]
      exact (List.prefix_append _ _).isInfix

/-- A growing axis with the edges puts the number into bin `i` of those that they grow to,
and grows if these have one more. -/
def Places (e : Edges) (x : Float) (i : Int) (front : Nat) (grown : Edges) : Prop :=
  ∀ (a : Axis) (c : Coord), a.law = .edges e → a.options.growth = true → c.toFloat? = some x →
    a.locate c = .ok ⟨i, front,
      if grown.size = e.size then none else some { a with law := .edges grown }⟩

theorem Rising.places (rising : e.Rising) (small : e.Addressable)
    (finite : Binary64.isFinite x = true) :
    e.Places x (e.grow x).1 (e.grow x).2.1 (e.grow x).2.2 := by
  intro a c law grows number
  have size : a.size = e.size := Axis.size_of_edges law
  have extended := rising.extends finite
  have inside : a.InRange (e.index x) ↔ (e.grow x).2.2.size = e.size := by
    have few := small.size_lt
    rw [extended.size_eq_iff rising, Axis.InRange, Axis.beyond, size, Word64.signed_of_lt (by omega)]
  have read : a.numeric c = .ok x := by
    rw [Axis.numeric, number]
    rfl
  have grow : a.grow c = .ok ((e.grow x).1, (e.grow x).2.1,
      { a with law := .edges (e.grow x).2.2 }) := by
    rw [Axis.grow, law]
    simp only [read]
    rfl
  simp only [Axis.locate, Axis.index_of_edges law number, inside, grows, grow, bind, Except.bind,
    if_true]
  by_cases same : (e.grow x).2.2.size = e.size
  · obtain ⟨bin, front⟩ := extended.eq_of_size rising same
    rw [if_pos same, if_pos same, bin, front]
    rfl
  · have larger : ¬ Axis.size { a with law := .edges (e.grow x).2.2 } = a.size := by
      rwa [Axis.size_of_edges rfl, size]
    rw [if_neg same, if_neg same, if_neg larger]
    rfl

/-- Edges keep what was there, however often they have grown, and each finite number
gets the bin that it lies in. -/
theorem accommodates_of_new {list : List Float} (made : new list = .ok e) (xs : List Float)
    (x : Float) : list <:+: (e.growAll xs).list ∧
      ∃ i front grown, (e.growAll xs).grow x = (i, front, grown) ∧
        (e.growAll xs).Accommodates x i front grown ∧
        ((e.growAll xs).Addressable → Binary64.isFinite x = true →
          (e.growAll xs).Places x i front grown) := by
  have rising := (ordered_of_new made).rising
  have later := rising.growAll xs
  refine ⟨(list_of_new made).1 ▸ rising.infix_growAll xs, _, _, _, rfl, later.accommodates x, ?_⟩
  intro small finite
  exact later.places small finite

/-- Two edges to which the largest number has added a third, an infinite one. -/
def endless : Edges := ⟨[1, 2, Binary64.infinity]⟩

theorem growAll_largest : growAll ⟨[1, 2]⟩ [Float.ofBits 0x7FEFFFFFFFFFFFFF] = endless := by
  rw [growAll_cons, growAll_nil]
  rfl

theorem accommodates_endless :
    new [1, 2] = .ok ⟨[1, 2]⟩ ∧ [1, 2] <:+: endless.list ∧
      ∃ grown, endless.grow (-3) = (0, 1, grown) ∧ endless.Accommodates (-3) 0 1 grown ∧
        endless.Places (-3) 0 1 grown := by
  have made : new [1, 2] = .ok ⟨[1, 2]⟩ := rfl
  have accommodates := accommodates_of_new made [Float.ofBits 0x7FEFFFFFFFFFFFFF] (-3)
  rw [growAll_largest] at accommodates
  obtain ⟨kept, i, front, grown, done, accommodated, placed⟩ := accommodates
  obtain rfl : 0 = i := congrArg Prod.fst done
  obtain rfl : 1 = front := congrArg (·.2.1) done
  exact ⟨made, kept, grown, done, accommodated, placed (Word64.inMemory_iff.mpr (by decide)) rfl⟩

end Edges
end Binning
