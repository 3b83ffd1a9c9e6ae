import Binning.Proofs.Keywords
import Binning.Proofs.Results
import Binning.Proofs.Text

/-! Keywords read from a text. The items are read one after the other, and the first one
without an equals sign, or with a name that stood in front of it, is refused. What is read
depends on the items alone, not on their order, and a text that is written from keywords
gives them back. -/
namespace Binning.Keywords
open Results Text

variable {k l : Keywords} {name value : String} {item : List Char}
  {items before after : List (List Char)}

/-! ### Items -/

def nameOf (item : List Char) : String := String.ofList (trim (item.takeWhile (· ≠ '=')))

def valueOf (item : List Char) : String := String.ofList (trim (item.dropWhile (· ≠ '=')).tail)

/-- Each item has an equals sign, and the names in front of it differ. -/
structure WellFormed (items : List (List Char)) : Prop where
  form : ∀ item ∈ items, '=' ∈ item
  distinct : (items.map nameOf).Nodup

/-- What is wrong with the first item that is not well-formed beside those before it. -/
inductive Malformed (items : List (List Char)) : ConfigError → Prop
  | form {before after : List (List Char)} {item : List Char} :
    items = before ++ item :: after → WellFormed before → '=' ∉ item →
    Malformed items (.keywordForm (String.ofList item))
  | twice {before after : List (List Char)} {item : List Char} :
    items = before ++ item :: after → WellFormed before → '=' ∈ item →
    nameOf item ∈ before.map nameOf → Malformed items (.keywordTwice (nameOf item))

/-- The keywords are the map from the names of the items to their values. -/
structure Spells (items : List (List Char)) (k : Keywords) : Prop where
  ordered : k.Ordered
  values : ∀ name value, k.get? name = some value ↔
    ∃ item ∈ items, nameOf item = name ∧ valueOf item = value

theorem WellFormed.perm {others : List (List Char)} (formed : WellFormed items)
    (same : items.Perm others) : WellFormed others :=
  ⟨fun item among => formed.form item (same.mem_iff.mpr among),
    (same.map nameOf).nodup_iff.mp formed.distinct⟩

theorem Malformed.not_wellFormed {cause : ConfigError} (malformed : Malformed items cause) :
    ¬ WellFormed items := by
  rintro ⟨form, distinct⟩
  cases malformed with
  | form split _ missing =>
    subst split
    exact missing (form _ (List.mem_append_right _ List.mem_cons_self))
  | twice split _ _ again =>
    subst split
    rw [List.map_append, List.map_cons] at distinct
    exact (List.nodup_append.mp distinct).2.2 _ again _ List.mem_cons_self rfl

namespace Spells

theorem nil : Spells [] {} := by
  refine ⟨ordered_empty, fun name value => ?_⟩
  simp only [get?_empty, reduceCtorEq, List.not_mem_nil, false_and, exists_false]

/-- Keywords with the same values are the same, whatever the order of the items. -/
theorem unique {others : List (List Char)} (left : Spells items k) (right : Spells others l)
    (same : ∀ item, item ∈ items ↔ item ∈ others) : k = l := by
  refine left.ordered.ext right.ordered fun name => Option.ext fun value => ?_
  simp only [left.values, right.values, same]

theorem isSome_get?_iff (spells : Spells items k) :
    (k.get? name).isSome ↔ name ∈ items.map nameOf := by
  rw [Option.isSome_iff_exists, List.mem_map]
  constructor
  · rintro ⟨value, given⟩
    obtain ⟨item, among, named, _⟩ := (spells.values name value).mp given
    exact ⟨item, among, named⟩
  · rintro ⟨item, among, named⟩
    exact ⟨valueOf item, (spells.values name _).mpr ⟨item, among, named, rfl⟩⟩

/-- One more item, of a name that is not there yet. -/
theorem insert (spells : Spells items k) (fresh : nameOf item ∉ items.map nameOf) :
    Spells (items ++ [item]) (k.insert (nameOf item) (valueOf item)) := by
  refine ⟨spells.ordered.insert _ _, fun name value => ?_⟩
  rw [get?_insert]
  simp only [List.mem_append, List.mem_singleton, or_and_right, exists_or, exists_eq_left]
  split
  · rename_i same
    subst same
    have other : ¬ ∃ old ∈ items, nameOf old = nameOf item ∧ valueOf old = value := by
      rintro ⟨old, among, named, _⟩
      exact fresh (List.mem_map.mpr ⟨old, among, named⟩)
    simp only [other, false_or, true_and, Option.some.injEq]
  · rename_i different
    simp only [spells.values, Ne.symm different, false_and, or_false]

end Spells

/-! ### Reading -/

theorem addItem_eq (k : Keywords) (item : List Char) :
    addItem k item =
      if '=' ∉ item then .error (.keywordForm (String.ofList item))
      else if (k.get? (nameOf item)).isSome then .error (.keywordTwice (nameOf item))
      else .ok (k.insert (nameOf item) (valueOf item)) := by
  by_cases found : '=' ∈ item
  · simp only [addItem, parseItem?, cut?_eq_of_mem found, Option.map_some, found, not_true_eq_false,
      if_false]
    rfl
  · simp only [addItem, parseItem?, cut?_eq_none_iff.mpr found, Option.map_none, found,
      not_false_eq_true, if_true]
    rfl

/-- Every run over the items reads them all or stops at the first that is malformed. -/
theorem foldlM_addItem (spells : Spells before k) (formed : WellFormed before)
    (after : List (List Char)) :
    (WellFormed (before ++ after) ∧
        ∃ l, after.foldlM addItem k = .ok l ∧ Spells (before ++ after) l) ∨
      ∃ cause, after.foldlM addItem k = .error cause ∧ Malformed (before ++ after) cause := by
  -- on the items to come; those that were read move over to the ones that `k` spells
  induction after generalizing before k with
  | nil =>
    rw [List.append_nil]
    exact .inl ⟨formed, k, rfl, spells⟩
  | cons item rest ih =>
    rw [List.foldlM_cons, addItem_eq]
    by_cases missing : '=' ∉ item
    · rw [if_pos missing]
      exact .inr ⟨_, rfl, .form rfl formed missing⟩
    rw [if_neg missing]
    rw [not_not] at missing
    by_cases again : nameOf item ∈ before.map nameOf
    · rw [if_pos (spells.isSome_get?_iff.mpr again)]
      exact .inr ⟨_, rfl, .twice rfl formed missing again⟩
    rw [if_neg (mt spells.isSome_get?_iff.mp again)]
    have longer : WellFormed (before ++ [item]) := by
      constructor
      · simp only [List.mem_append, List.mem_singleton]
        rintro other (earlier | rfl)
        · exact formed.form other earlier
        · exact missing
      · rw [List.map_append, List.nodup_append]
        refine ⟨formed.distinct, List.nodup_singleton _, ?_⟩
        rintro name earlier _ last rfl
        exact again (List.mem_singleton.mp last ▸ earlier)
    have run := ih (spells.insert again) longer
    rwa [List.append_assoc] at run

theorem parse_cases (s : String) :
    (WellFormed (Keywords.items s) ∧ ∃ k, parse s = .ok k ∧ Spells (Keywords.items s) k) ∨
      ∃ cause, parse s = .error cause ∧ Malformed (Keywords.items s) cause :=
  foldlM_addItem .nil ⟨fun _ none => absurd none List.not_mem_nil, List.nodup_nil⟩ _

theorem items_eq (s : String) : Keywords.items s = condense (pieces ',' s.toList) := rfl

theorem spells_of_parse {s : String} (read : parse s = .ok k) : Spells (Keywords.items s) k := by
  rcases parse_cases s with ⟨_, l, again, spells⟩ | ⟨_, failed, _⟩
  · cases read.symm.trans again
    exact spells
  · cases read.symm.trans failed

theorem malformed_of_parse {s : String} {cause : ConfigError} (failed : parse s = .error cause) :
    Malformed (Keywords.items s) cause := by
  rcases parse_cases s with ⟨_, _, read, _⟩ | ⟨_, again, malformed⟩
  · cases failed.symm.trans read
  · cases failed.symm.trans again
    exact malformed

theorem exists_parse_iff (s : String) :
    (∃ k, parse s = .ok k) ↔ WellFormed (Keywords.items s) := by
  rcases parse_cases s with ⟨formed, k, read, _⟩ | ⟨_, failed, malformed⟩
  · exact iff_of_true ⟨k, read⟩ formed
  · refine iff_of_false ?_ malformed.not_wellFormed
    rintro ⟨_, read⟩
    cases read.symm.trans failed

theorem parse_perm {s t : String} (same : (Keywords.items s).Perm (Keywords.items t)) :
    (parse s).toOption = (parse t).toOption := by
  rcases parse_cases s with ⟨formed, k, read, spells⟩ | ⟨_, failed, malformed⟩
  · obtain ⟨l, again⟩ := (exists_parse_iff t).mpr (formed.perm same)
    rw [read, again, spells.unique (spells_of_parse again) fun item => same.mem_iff]
  · rcases parse_cases t with ⟨formed, _⟩ | ⟨_, again, _⟩
    · exact absurd (formed.perm same.symm) malformed.not_wellFormed
    · rw [failed, again]
      rfl

/-! ### Writing -/

/-- The entries as a text. -/
def write (entries : List (String × String)) : String :=
  ",".intercalate (entries.map fun e => e.1 ++ "=" ++ e.2)

/-- An entry that a text of items can hold. -/
structure Writable (entry : String × String) : Prop where
  name : Trimmed entry.1.toList
  value : Trimmed entry.2.toList
  plain : ',' ∉ entry.1.toList ∧ '=' ∉ entry.1.toList
  free : ',' ∉ entry.2.toList

section
variable {entry : String × String} {entries : List (String × String)}

def itemOf (entry : String × String) : List Char := entry.1.toList ++ '=' :: entry.2.toList

namespace Writable

theorem passes_name (writable : Writable entry) :
    ∀ c ∈ entry.1.toList, decide (c ≠ '=') = true :=
  fun _ among => decide_eq_true fun same => writable.plain.2 (same ▸ among)

theorem nameOf_itemOf (writable : Writable entry) : nameOf (itemOf entry) = entry.1 := by
  rw [nameOf, itemOf, List.takeWhile_append_of_pos writable.passes_name,
    List.takeWhile_cons_of_neg (by decide), List.append_nil, writable.name.trim_eq,
    String.ofList_toList]

theorem valueOf_itemOf (writable : Writable entry) : valueOf (itemOf entry) = entry.2 := by
  rw [valueOf, itemOf, List.dropWhile_append_of_pos writable.passes_name,
    List.dropWhile_cons_of_neg (by decide), List.tail_cons, writable.value.trim_eq,
    String.ofList_toList]

theorem trimmed_itemOf (writable : Writable entry) : Trimmed (itemOf entry) := by
  constructor
  · intro c first
    rw [itemOf, List.head?_append] at first
    cases named : entry.1.toList.head? with
    | none =>
      rw [named] at first
      cases first
      decide
    | some d =>
      rw [named] at first
      exact writable.name.first c (named ▸ first)
  · intro c last
    rw [itemOf, List.getLast?_append_of_ne_nil _ (List.cons_ne_nil _ _)] at last
    cases valued : entry.2.toList with
    | nil =>
      rw [valued] at last
      cases last
      decide
    | cons d rest =>
      rw [valued, List.getLast?_cons_cons, ← valued] at last
      exact writable.value.last c last

theorem free_itemOf (writable : Writable entry) : ',' ∉ itemOf entry := by
  simp only [itemOf, List.mem_append, List.mem_cons, writable.plain.1, writable.free, false_or,
    or_false]
  decide

end Writable

theorem toList_write (entries : List (String × String)) :
    (write entries).toList = [','].intercalate (entries.map itemOf) := by
  have each : ∀ entry : String × String,
      (entry.1 ++ "=" ++ entry.2).toList = itemOf entry := by
    intro entry
    simp only [itemOf, String.toList_append, List.append_assoc]
    rfl
  rw [write, String.toList_intercalate, List.map_map]
  exact congrArg _ (List.map_congr_left fun entry _ => each entry)

theorem items_write (writable : ∀ entry ∈ entries, Writable entry) :
    Keywords.items (write entries) = entries.map itemOf := by
  cases entries with
  | nil => rfl
  | cons first rest =>
    have each : ∀ item ∈ (first :: rest).map itemOf, ',' ∉ item ∧ item ≠ [] ∧ Trimmed item := by
      intro item among
      obtain ⟨entry, listed, rfl⟩ := List.mem_map.mp among
      exact ⟨(writable entry listed).free_itemOf, List.append_ne_nil_of_right_ne_nil _
        (List.cons_ne_nil _ _), (writable entry listed).trimmed_itemOf⟩
    rw [items_eq, toList_write, pieces_intercalate (fun item among => (each item among).1)
      (List.cons_ne_nil _ _), condense_eq_self fun item among => (each item among).2]

section
variable (ordered : k.Ordered) (listed : entries.Perm k.entries)
  (writable : ∀ entry ∈ entries, Writable entry)
include ordered listed writable

theorem spells_map_itemOf : Spells (entries.map itemOf) k := by
  refine ⟨ordered, fun name value => ?_⟩
  rw [ordered.get?_eq_some_iff, ← listed.mem_iff]
  constructor
  · intro among
    have written := writable _ among
    exact ⟨_, List.mem_map_of_mem among, written.nameOf_itemOf, written.valueOf_itemOf⟩
  · rintro ⟨item, among, rfl, rfl⟩
    obtain ⟨entry, source, rfl⟩ := List.mem_map.mp among
    rwa [(writable entry source).nameOf_itemOf, (writable entry source).valueOf_itemOf]

theorem wellFormed_map_itemOf : WellFormed (entries.map itemOf) := by
  constructor
  · intro item among
    obtain ⟨entry, _, rfl⟩ := List.mem_map.mp among
    exact List.mem_append_right _ List.mem_cons_self
  · have names : (entries.map itemOf).map nameOf = entries.map (·.1) := by
      rw [List.map_map]
      exact List.map_congr_left fun entry among => (writable entry among).nameOf_itemOf
    have distinct : (k.entries.map (·.1)).Nodup := List.pairwise_map.mpr (ordered.imp ne_of_lt)
    rw [names]
    exact (listed.map _).nodup_iff.mpr distinct

/-- In any order, the entries of ordered keywords are read back. -/
theorem parse_write : parse (write entries) = .ok k := by
  have formed := wellFormed_map_itemOf ordered listed writable
  rw [← items_write writable] at formed
  obtain ⟨l, read⟩ := (exists_parse_iff _).mpr formed
  have spells := spells_of_parse read
  rw [items_write writable] at spells
  rw [read, spells.unique (spells_map_itemOf ordered listed writable) fun _ => Iff.rfl]

end
end

/-! ### Texts -/

/-- The items are the only ones that the text lists without blanks at their ends, none of
them empty. -/
theorem lists_iff (s : String) (items : List (List Char)) :
    (Lists ',' s.toList items ∧ ∀ item ∈ items, item ≠ [] ∧ Trimmed item) ↔
      items = Keywords.items s := by
  constructor
  · rintro ⟨lists, trimmed⟩
    rw [items_eq, lists.condense_pieces, condense_eq_self trimmed]
  · rintro rfl
    exact ⟨lists_condense_pieces ',' s.toList, fun item => mem_condense⟩

theorem parse_respaced {s t : String} {left right : List (List Char)}
    (first : Lists ',' s.toList left) (second : Lists ',' t.toList right)
    (same : left.Perm right) : (parse s).toOption = (parse t).toOption := by
  apply parse_perm
  rw [items_eq, items_eq, first.condense_pieces, second.condense_pieces]
  exact (same.map trim).filter _

/-- A text is read if and only if each of its items has an equals sign and no name comes
twice, and then for the map from the names to the values; otherwise the first item that is
malformed says why. Neither the order of the items nor any space between them changes the
keywords, and those that can be written are read back. -/
theorem parse_exact :
    (∀ s items, (Lists ',' s.toList items ∧ ∀ item ∈ items, item ≠ [] ∧ Trimmed item) ↔
      items = Keywords.items s) ∧
    (∀ s, ((∃ k, parse s = .ok k) ↔ WellFormed (Keywords.items s)) ∧
      (∀ k, parse s = .ok k → Spells (Keywords.items s) k) ∧
      ∀ cause, parse s = .error cause → Malformed (Keywords.items s) cause) ∧
    (∀ (s t : String) left right, Lists ',' s.toList left → Lists ',' t.toList right →
      left.Perm right → (parse s).toOption = (parse t).toOption) ∧
    ∀ (k : Keywords) entries, k.Ordered → entries.Perm k.entries →
      (∀ entry ∈ entries, Writable entry) → parse (write entries) = .ok k :=
  ⟨lists_iff,
    fun s => ⟨exists_parse_iff s, fun _ => spells_of_parse, fun _ => malformed_of_parse⟩,
    fun _ _ _ _ => parse_respaced, fun _ _ => parse_write⟩

example : parse " pt = x=y ,, growth=1," = .ok ⟨[("growth", "1"), ("pt", "x=y")]⟩ := by
  rfl

end Binning.Keywords
