import Binning.Text.Items
import Mathlib.Data.List.DropRight

/-! Texts in pieces. The pieces of a text, joined by the separator, are the text, and what
is trimmed is the text without the blanks at its ends. -/
namespace Binning.Text

variable {separator : Char} {s t left right : List Char}

/-! ### Pieces -/

theorem pieces_eq_splitOn (separator : Char) (s : List Char) :
    pieces separator s = s.splitOn separator := by
  induction s with
  | nil => rfl
  | cons c rest ih =>
    rw [pieces, List.splitOn_cons_eq_if_modifyHead, ih]
    simp only [beq_iff_eq]
    split
    · rfl
    · cases split : rest.splitOn separator with
      | nil => exact (List.splitOn_ne_nil separator rest split).elim
      | cons => rfl

theorem intercalate_pieces (separator : Char) (s : List Char) :
    [separator].intercalate (pieces separator s) = s := by
  rw [pieces_eq_splitOn, List.intercalate_splitOn]

theorem pieces_intercalate {parts : List (List Char)} (free : ∀ part ∈ parts, separator ∉ part)
    (some_part : parts ≠ []) : pieces separator ([separator].intercalate parts) = parts := by
  rw [pieces_eq_splitOn, List.splitOn_intercalate separator free some_part]

theorem not_mem_of_mem_pieces {piece : List Char} (among : piece ∈ pieces separator s) :
    separator ∉ piece := by
  induction s generalizing piece with
  | nil =>
    obtain rfl := List.mem_singleton.mp among
    exact List.not_mem_nil
  | cons c rest ih =>
    unfold pieces at among
    split at among
    · rcases List.mem_cons.mp among with rfl | later
      · exact List.not_mem_nil
      · exact ih later
    rename_i different
    cases split : pieces separator rest with
    | nil => exact absurd split (pieces_ne_nil separator rest)
    | cons first others =>
      rw [split] at among ih
      rcases List.mem_cons.mp among with rfl | later
      · rw [List.mem_cons, not_or]
        exact ⟨Ne.symm different, ih List.mem_cons_self⟩
      · exact ih (List.mem_cons_of_mem first later)

/-! ### Cuts -/

theorem cut?_eq_of_mem (found : separator ∈ s) :
    cut? separator s =
      some (s.takeWhile (· ≠ separator), (s.dropWhile (· ≠ separator)).tail) := by
  induction s with
  | nil => exact absurd found List.not_mem_nil
  | cons c rest ih =>
    by_cases same : c = separator
    · simp [cut?, same]
    · have later : separator ∈ rest := (List.mem_cons.mp found).resolve_left (Ne.symm same)
      simp [cut?, same, ih later]

/-! ### Blanks -/

/-- A text of blanks only. -/
def Blank (s : List Char) : Prop := ∀ c ∈ s, isBlank c = true

/-- A text that neither starts nor ends with a blank. -/
structure Trimmed (s : List Char) : Prop where
  first : ∀ c ∈ s.head?, isBlank c = false
  last : ∀ c ∈ s.getLast?, isBlank c = false

theorem trimRight_append (blank : Blank right) (s : List Char) :
    trimRight (s ++ right) = trimRight s := by
  have reversed : ∀ c ∈ right.reverse, isBlank c = true := fun c among =>
    blank c (List.mem_reverse.mp among)
  rw [trimRight, List.reverse_append, List.dropWhile_append_of_pos reversed]
  rfl

/-- Blanks around a text are trimmed away with those at its ends. -/
theorem trim_append (before : Blank left) (after : Blank right) (s : List Char) :
    trim (left ++ s ++ right) = trim s := by
  rw [trim, trimLeft, List.append_assoc, List.dropWhile_append_of_pos before,
    List.dropWhile_append]
  split
  · rename_i nothing
    rw [List.isEmpty_iff] at nothing
    rw [List.dropWhile_eq_nil_iff.mpr after, trim, trimLeft, nothing]
  · exact trimRight_append after _

theorem exists_trim (s : List Char) :
    ∃ left right, Blank left ∧ Blank right ∧ s = left ++ trim s ++ right := by
  refine ⟨s.takeWhile isBlank, (trimLeft s).rtakeWhile isBlank, fun c => List.mem_takeWhile_imp,
    fun c => List.mem_rtakeWhile_imp, ?_⟩
  have rest : trim s ++ (trimLeft s).rtakeWhile isBlank = trimLeft s :=
    List.rdropWhile_append_rtakeWhile
  rw [List.append_assoc, rest]
  exact List.takeWhile_append_dropWhile.symm

theorem head?_dropWhile_isBlank (s : List Char) :
    ∀ c ∈ (s.dropWhile isBlank).head?, isBlank c = false := by
  intro c first
  have fails := List.head?_dropWhile_not isBlank s
  rw [Option.mem_def.mp first] at fails
  exact fails

theorem trimmed_trim (s : List Char) : Trimmed (trim s) := by
  have shorter : trim s <+: trimLeft s := List.rdropWhile_prefix isBlank (trimLeft s)
  constructor
  · intro c first
    obtain ⟨rest, whole⟩ := shorter
    apply head?_dropWhile_isBlank s
    change c ∈ (trimLeft s).head?
    rw [← whole, List.head?_append, Option.mem_def.mp first]
    rfl
  · intro c last
    apply head?_dropWhile_isBlank (trimLeft s).reverse
    rwa [← List.getLast?_reverse]

theorem dropWhile_isBlank_eq_self (first : ∀ c ∈ s.head?, isBlank c = false) :
    s.dropWhile isBlank = s := by
  cases s with
  | nil => rfl
  | cons c rest => rw [List.dropWhile_cons, first c rfl, if_neg Bool.false_ne_true]

theorem Trimmed.trim_eq (trimmed : Trimmed s) : trim s = s := by
  have front : trimLeft s = s := dropWhile_isBlank_eq_self trimmed.first
  have back : s.reverse.dropWhile isBlank = s.reverse := by
    apply dropWhile_isBlank_eq_self
    rw [List.head?_reverse]
    exact trimmed.last
  rw [trim, front, trimRight, back, List.reverse_reverse]

/-! ### Items -/

/-- The pieces are the items with blanks around them and, between them, pieces of blanks
only. -/
inductive Spaced : List (List Char) → List (List Char) → Prop
  | nil : Spaced [] []
  | blank {piece : List Char} {pieces items : List (List Char)} : Blank piece →
    Spaced pieces items → Spaced (piece :: pieces) items
  | item {left item right : List Char} {pieces items : List (List Char)} : Blank left →
    Blank right → Spaced pieces items → Spaced ((left ++ item ++ right) :: pieces) (item :: items)

/-- The text lists the items between separators, with any blanks around them. -/
def Lists (separator : Char) (s : List Char) (items : List (List Char)) : Prop :=
  ∃ pieces, pieces ≠ [] ∧ (∀ piece ∈ pieces, separator ∉ piece) ∧
    s = [separator].intercalate pieces ∧ Spaced pieces items

/-- What is left of the items when blanks do not count. -/
def condense (items : List (List Char)) : List (List Char) :=
  (items.map trim).filter (!·.isEmpty)

theorem condense_cons (item : List Char) (items : List (List Char)) :
    condense (item :: items) =
      if trim item = [] then condense items else trim item :: condense items := by
  rw [condense, List.map_cons, List.filter_cons]
  cases trim item <;> rfl

theorem Blank.trim_eq (blank : Blank s) : trim s = [] := by
  have trimmed : trim (s ++ [] ++ []) = trim [] :=
    trim_append blank (fun _ none => absurd none List.not_mem_nil) []
  rwa [List.append_nil, List.append_nil] at trimmed

theorem Spaced.condense_eq {pieces items : List (List Char)} (spaced : Spaced pieces items) :
    condense pieces = condense items := by
  induction spaced with
  | nil => rfl
  | blank blank _ ih => rw [condense_cons, if_pos blank.trim_eq, ih]
  | item before after _ ih => rw [condense_cons, condense_cons, trim_append before after, ih]

theorem spaced_condense (pieces : List (List Char)) : Spaced pieces (condense pieces) := by
  induction pieces with
  | nil => exact .nil
  | cons piece rest ih =>
    obtain ⟨left, right, before, after, whole⟩ := exists_trim piece
    rw [condense_cons]
    split
    · rename_i nothing
      rw [nothing, List.append_nil] at whole
      refine .blank (fun c among => ?_) ih
      rw [whole] at among
      exact (List.mem_append.mp among).elim (before c) (after c)
    · have spaced : Spaced ((left ++ trim piece ++ right) :: rest) (trim piece :: condense rest) :=
        .item before after ih
      rwa [← whole] at spaced

theorem mem_condense {item : List Char} {items : List (List Char)} (among : item ∈ condense items) :
    item ≠ [] ∧ Trimmed item := by
  obtain ⟨trimmed, nonempty⟩ := List.mem_filter.mp among
  obtain ⟨item, _, rfl⟩ := List.mem_map.mp trimmed
  refine ⟨fun empty => ?_, trimmed_trim item⟩
  rw [empty] at nonempty
  contradiction

theorem condense_eq_self {items : List (List Char)}
    (trimmed : ∀ item ∈ items, item ≠ [] ∧ Trimmed item) : condense items = items := by
  induction items with
  | nil => rfl
  | cons item rest ih =>
    obtain ⟨⟨nonempty, first⟩, others⟩ := List.forall_mem_cons.mp trimmed
    rw [condense_cons, first.trim_eq, if_neg nonempty, ih others]

theorem lists_condense_pieces (separator : Char) (s : List Char) :
    Lists separator s (condense (pieces separator s)) :=
  ⟨pieces separator s, pieces_ne_nil separator s, fun _ => not_mem_of_mem_pieces,
    (intercalate_pieces separator s).symm, spaced_condense _⟩

/-- However a text spaces its items, what counts is left of its pieces. -/
theorem Lists.condense_pieces {items : List (List Char)} (lists : Lists separator s items) :
    condense (pieces separator s) = condense items := by
  obtain ⟨parts, some_part, free, rfl, spaced⟩ := lists
  rw [pieces_intercalate free some_part, spaced.condense_eq]

end Binning.Text
