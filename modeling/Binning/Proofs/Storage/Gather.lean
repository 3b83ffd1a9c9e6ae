import Binning.Proofs.Storage.Unlimited

/-! What a gather leaves in a slot: the cells that are sent there, merged in
their order. Only the unlimited storage tells more: from the first merge that
its counts cannot hold, all of its slots are sums of weights. -/
namespace Binning.Bins

/-- The positions below `n` that are sent to slot `i`, in order. -/
def sources (target : Nat → Option Nat) (n i : Nat) : List Nat :=
  (List.range n).filter (target · = some i)

/-- The listed cells merged into an empty slot of its own. -/
def merged (b : Bins) (sources : List Nat) : Cell :=
  (sources.foldl (fun out j => out.addFrom 0 b j) (empty b.kind 1)).get 0

/-- The number of entries in the listed counts. -/
def total (b : Bins) (sources : List Nat) : Nat := (sources.map fun j => (b.get j).tally).sum

/-- The listed cells when those from `turn` on are added as sums of weights. -/
def mergedFrom (b : Bins) (turn : Nat) (sources : List Nat) : Cell :=
  .real ((sources.filter (turn ≤ ·)).foldl (fun x j => x + (b.get j).value)
    (Binary64.ofNat (b.total (sources.filter (· < turn)))))

/-- Position `p` is sent somewhere and cannot be counted there: it is a sum of
weights, or it takes the total beyond a word. -/
def Turns {ι : Type} (b : Bins) (sources : ι → List Nat) (p : Nat) : Prop :=
  ∃ t, p ∈ sources t ∧
    ((b.get p).isReal = true ∨ 2 ^ 64 ≤ b.total ((sources t).filter (· ≤ p)))

/-- Where the counters turn into sums of weights, if they do. -/
def Turning {ι : Type} (b : Bins) (sources : ι → List Nat) : Option Nat → Prop
  | none => b.kind = .unlimited → ∀ p, ¬ b.Turns sources p
  | some turn => b.kind = .unlimited ∧ b.Turns sources turn ∧ ∀ q < turn, ¬ b.Turns sources q

/-- The listed cells merged when the counters turn there. -/
def mergedWith (b : Bins) : Option Nat → List Nat → Cell
  | none => b.merged
  | some turn => b.mergedFrom turn

/-! ### One position after the other -/

def send (b : Bins) (target : Nat → Option Nat) (out : Bins) (j : Nat) : Bins :=
  match target j with
  | some i => out.addFrom i b j
  | none => out

theorem gather_eq_foldl (b : Bins) (length : Nat) (target : Nat → Option Nat) :
    b.gather length target = (List.range b.length).foldl (b.send target) (empty b.kind length) :=
  rfl

theorem merged_eq_foldl (b : Bins) (sources : List Nat) :
    b.merged sources = (sources.foldl (b.send fun _ => some 0) (empty b.kind 1)).get 0 := rfl

variable {b : Bins} {target : Nat → Option Nat}

theorem length_kind_send (b : Bins) (target : Nat → Option Nat) (out : Bins) (j : Nat) :
    (b.send target out j).length = out.length ∧ (b.send target out j).kind = out.kind := by
  unfold send
  split
  · exact ⟨length_addFrom .., kind_addFrom ..⟩
  · exact ⟨rfl, rfl⟩

theorem length_kind_foldl_send (js : List Nat) (out : Bins) :
    (js.foldl (b.send target) out).length = out.length ∧
      (js.foldl (b.send target) out).kind = out.kind := by
  induction js generalizing out with
  | nil => exact ⟨rfl, rfl⟩
  | cons j js ih =>
    obtain ⟨length, kind⟩ := length_kind_send b target out j
    exact length ▸ kind ▸ ih _

@[simp] theorem length_gather (b : Bins) (length : Nat) (target : Nat → Option Nat) :
    (b.gather length target).length = length :=
  (length_kind_foldl_send ..).1.trans (length_empty ..)

@[simp] theorem kind_gather (b : Bins) (length : Nat) (target : Nat → Option Nat) :
    (b.gather length target).kind = b.kind :=
  (length_kind_foldl_send ..).2.trans (kind_empty ..)

/-- What every merge keeps is kept all along. -/
theorem foldl_send_of_addFrom {P : Bins → Prop} (keeps : ∀ out i j, P out → P (out.addFrom i b j))
    {out : Bins} (holds : P out) (js : List Nat) : P (js.foldl (b.send target) out) := by
  induction js generalizing out with
  | nil => exact holds
  | cons j js ih =>
    apply ih
    unfold send
    split
    · exact keeps _ _ _ holds
    · exact holds

theorem Words.foldl_send {out : Bins} (words : out.Words) (same : out.kind = b.kind)
    (js : List Nat) : (js.foldl (b.send target) out).Words := by
  refine (foldl_send_of_addFrom (P := fun out => out.Words ∧ out.kind = b.kind) ?_
    ⟨words, same⟩ js).1
  rintro out i j ⟨words, same⟩
  exact ⟨words.addFrom same.symm i j, (kind_addFrom ..).trans same⟩

theorem words_gather (b : Bins) (length : Nat) (target : Nat → Option Nat) :
    (b.gather length target).Words :=
  (words_empty b.kind length).foldl_send (kind_empty ..) _

/-! ### Slots that do not depend on each other -/

theorem get_foldl_send {out : Bins} {k : Nat} (apart : b.kind ≠ .unlimited)
    (same : out.kind = b.kind) (below : k < out.length) (js : List Nat) :
    (js.foldl (b.send target) out).get k =
      ((js.filter (target · = some k)).map b.get).foldl b.kind.merge (out.get k) := by
  induction js generalizing out with
  | nil => rfl
  | cons j js ih =>
    obtain ⟨length, kind⟩ := length_kind_send b target out j
    rw [List.foldl_cons, ih (kind.trans same) (length ▸ below)]
    by_cases here : target j = some k
    · have merges : (b.send target out j).get k = b.kind.merge (out.get k) (b.get j) := by
        rw [send, here]
        exact same ▸ (get_addFrom k (same ▸ apart) same.symm j k).trans (if_pos ⟨rfl, below⟩)
      rw [merges, List.filter_cons_of_pos (by simpa using here), List.map_cons, List.foldl_cons]
    · have stays : (b.send target out j).get k = out.get k := by
        unfold send
        split
        · rename_i i other
          refine (get_addFrom i (same ▸ apart) same.symm j k).trans (if_neg ?_)
          rintro ⟨rfl, _⟩
          exact here other
        · rfl
      rw [stays, List.filter_cons_of_neg (by simpa using here)]

theorem merged_eq_merge (apart : b.kind ≠ .unlimited) (sources : List Nat) :
    b.merged sources = (sources.map b.get).foldl b.kind.merge b.kind.zero := by
  rw [merged_eq_foldl, get_foldl_send apart (kind_empty ..) (by simp), get_empty,
    List.filter_eq_self.mpr fun _ _ => decide_eq_true rfl]

theorem get_gather_of_apart (apart : b.kind ≠ .unlimited) {length i : Nat} (below : i < length) :
    (b.gather length target).get i = b.merged (sources target b.length i) := by
  rw [merged_eq_merge apart, gather_eq_foldl,
    get_foldl_send apart (kind_empty ..) ((length_empty ..).symm ▸ below), get_empty, sources]

/-- Only unlimited counters turn. -/
theorem Turning.mergedWith_eq {ι : Type} {sources : ι → List Nat} {turn : Option Nat}
    (turning : b.Turning sources turn) (apart : b.kind ≠ .unlimited) :
    b.mergedWith turn = b.merged := by
  cases turn with
  | none => rfl
  | some => exact absurd turning.1 apart

theorem Turning.congr {ι κ : Type} {b : Bins} {sources : ι → List Nat}
    {others : κ → List Nat} {turn : Option Nat} (turning : b.Turning sources turn)
    (same : ∀ p, b.Turns sources p ↔ b.Turns others p) : b.Turning others turn := by
  cases turn with
  | none => exact fun free p => (not_congr (same p)).mp (turning free p)
  | some turn =>
    obtain ⟨free, turns, first⟩ := turning
    exact ⟨free, (same turn).mp turns, fun q before => (not_congr (same q)).mp (first q before)⟩

/-! ### Slots that turn together -/

def turned : Bins → Bool
  | unlimited u => u.turned
  | _ => false

theorem isReal_get (free : b.kind = .unlimited) (i : Nat) : (b.get i).isReal = b.turned := by
  cases b <;> cases free
  exact Unlimited.isReal_get ..

theorem addFrom_of_fits (out : Bins) {i j : Nat} (free : b.kind = .unlimited)
    (same : out.kind = b.kind) (whole : out.turned = false) (count : (b.get j).isReal = false)
    (below : i < out.length) (fits : (out.get i).tally + (b.get j).tally < 2 ^ 64) :
    (out.addFrom i b j).turned = false ∧ ∀ k,
      (out.addFrom i b j).get k =
        .count ((out.get k).tally + if k = i then (b.get j).tally else 0) := by
  cases b <;> cases free
  cases out <;> cases same
  exact Unlimited.addFrom_of_fits whole (Unlimited.isReal_get .. ▸ count) below fits

theorem addFrom_of_spills (out : Bins) {i j : Nat} (free : b.kind = .unlimited)
    (same : out.kind = b.kind)
    (spills : out.turned = true ∨ (b.get j).isReal = true ∨
      2 ^ 64 ≤ (out.get i).tally + (b.get j).tally) :
    (out.addFrom i b j).turned = true ∧ ∀ k < out.length,
      (out.addFrom i b j).get k =
        .real (if k = i then (out.get k).value + (b.get j).value else (out.get k).value) := by
  cases b <;> cases free
  cases out <;> cases same
  refine Unlimited.addFrom_of_spills (spills.imp id (Or.imp ?_ id))
  intro real
  exact Unlimited.isReal_get .. ▸ real

theorem total_append (b : Bins) (js ks : List Nat) :
    b.total (js ++ ks) = b.total js + b.total ks := by
  simp [total]

theorem mergedFrom_of_below {turn : Nat} {js : List Nat} (below : ∀ j ∈ js, j < turn) :
    b.mergedFrom turn js = .real (Binary64.ofNat (b.total js)) := by
  have none_after : js.filter (turn ≤ ·) = [] :=
    List.filter_eq_nil_iff.mpr fun j among => by simpa using below j among
  have all_before : js.filter (· < turn) = js :=
    List.filter_eq_self.mpr fun j among => by simpa using below j among
  rw [mergedFrom, none_after, all_before]
  rfl

theorem mergedFrom_append {turn n : Nat} (past : turn ≤ n) (js : List Nat) :
    b.mergedFrom turn (js ++ [n]) = .real ((b.mergedFrom turn js).value + (b.get n).value) := by
  simp [mergedFrom, List.filter_append, past, Cell.value]

theorem sources_succ (target : Nat → Option Nat) (n i : Nat) :
    sources target (n + 1) i = sources target n i ++ if target n = some i then [n] else [] := by
  rw [sources, sources, List.range_succ, List.filter_append]
  by_cases here : target n = some i <;> simp [here]

theorem mem_sources {n i p : Nat} : p ∈ sources target n i ↔ p < n ∧ target p = some i := by
  simp [sources]

theorem filter_range_eq_singleton {n j : Nat} {keep : Nat → Bool} (below : j < n)
    (only : ∀ k < n, keep k = true ↔ k = j) : (List.range n).filter keep = [j] := by
  have same : (List.range n).filter keep = (List.range n).filter (· == j) := by
    apply List.filter_congr
    intro k among
    rw [Bool.eq_iff_iff, beq_iff_eq]
    exact only k (List.mem_range.mp among)
  rw [same, List.filter_beq, List.count_eq_one_of_mem List.nodup_range (List.mem_range.mpr below)]
  rfl

/-- One slot alone is sent there. -/
theorem sources_eq_singleton {n i j : Nat} (below : j < n) (sent : target j = some i)
    (alone : ∀ k < n, target k = some i → k = j) : sources target n i = [j] := by
  refine filter_range_eq_singleton below fun k inside => ?_
  rw [decide_eq_true_eq]
  exact ⟨alone k inside, fun same => same ▸ sent⟩

theorem lt_of_mem_sources {n i p : Nat} (among : p ∈ sources target n i) : p < n :=
  (mem_sources.mp among).1

theorem total_sources_succ (b : Bins) {n i : Nat} (sent : target n = some i) :
    b.total (sources target (n + 1) i) = b.total (sources target n i) + (b.get n).tally := by
  rw [sources_succ, if_pos sent, total_append]
  rfl

theorem filter_le_sources {n i p : Nat} (below : p < n) :
    (sources target n i).filter (· ≤ p) = sources target (p + 1) i := by
  induction n with
  | zero => omega
  | succ n ih =>
    rw [sources_succ, List.filter_append]
    rcases Nat.lt_succ_iff_lt_or_eq.mp below with less | rfl
    · rw [ih less]
      split <;> simp [less]
    · rw [List.filter_eq_self.mpr, List.filter_eq_self.mpr, ← sources_succ]
      · intro q among
        split at among <;> simp_all
      · intro q among
        exact decide_eq_true (Nat.le_of_lt (lt_of_mem_sources among))

/-- The gather after the positions below `n`. -/
def gathered (b : Bins) (length : Nat) (target : Nat → Option Nat) (n : Nat) : Bins :=
  (List.range n).foldl (b.send target) (empty b.kind length)

theorem gathered_succ (b : Bins) (length : Nat) (target : Nat → Option Nat) (n : Nat) :
    b.gathered length target (n + 1) = b.send target (b.gathered length target n) n := by
  rw [gathered, List.range_succ, List.foldl_append]
  rfl

@[simp] theorem length_gathered (b : Bins) (length : Nat) (target : Nat → Option Nat) (n : Nat) :
    (b.gathered length target n).length = length :=
  (length_kind_foldl_send ..).1.trans (length_empty ..)

@[simp] theorem kind_gathered (b : Bins) (length : Nat) (target : Nat → Option Nat) (n : Nat) :
    (b.gathered length target n).kind = b.kind :=
  (length_kind_foldl_send ..).2.trans (kind_empty ..)

theorem turns_sources {p : Nat} :
    b.Turns (sources target b.length) p ↔ p < b.length ∧ ∃ i, target p = some i ∧
      ((b.get p).isReal = true ∨ 2 ^ 64 ≤ b.total (sources target (p + 1) i)) := by
  constructor
  · rintro ⟨i, among, turns⟩
    obtain ⟨below, sent⟩ := mem_sources.mp among
    rw [filter_le_sources below] at turns
    exact ⟨below, i, sent, turns⟩
  · rintro ⟨below, i, sent, turns⟩
    rw [← filter_le_sources below] at turns
    exact ⟨i, mem_sources.mpr ⟨below, sent⟩, turns⟩

section Turning
variable {length : Nat} (free : b.kind = .unlimited)
  (lands : ∀ p < b.length, ∀ i, target p = some i → i < length)
include free lands

/-- Until the counters turn, each slot holds the total that was sent there. -/
theorem gathered_counts {n : Nat} (within : n ≤ b.length)
    (whole : ∀ p < n, ¬ b.Turns (sources target b.length) p) :
    (b.gathered length target n).turned = false ∧ ∀ i < length,
      (b.gathered length target n).get i = .count (b.total (sources target n i)) := by
  induction n with
  | zero =>
    rw [gathered, List.range_zero, List.foldl_nil, free]
    exact ⟨rfl, fun i _ => get_empty ..⟩
  | succ n ih =>
    obtain ⟨unturned, counts⟩ := ih (by omega) fun p below => whole p (by omega)
    have stays := whole n (Nat.lt_succ_self n)
    rw [turns_sources] at stays
    rw [gathered_succ, send]
    cases sent : target n with
    | none =>
      refine ⟨unturned, fun i below => ?_⟩
      rw [counts i below, sources_succ, sent, if_neg (by simp), List.append_nil]
    | some slot =>
      have below := lands n within slot sent
      have count : (b.get n).isReal = false := by
        rw [← Bool.not_eq_true]
        intro real
        exact stays ⟨within, slot, sent, .inl real⟩
      have held : ((b.gathered length target n).get slot).tally =
          b.total (sources target n slot) := by
        rw [counts slot below]
        rfl
      have fits : ((b.gathered length target n).get slot).tally + (b.get n).tally < 2 ^ 64 := by
        rw [held, ← total_sources_succ b sent]
        exact Nat.lt_of_not_le fun large => stays ⟨within, slot, sent, .inr large⟩
      obtain ⟨unturned, added⟩ := addFrom_of_fits (b.gathered length target n) free
        (kind_gathered ..) unturned count ((length_gathered ..).symm ▸ below) fits
      refine ⟨unturned, fun i inside => (added i).trans (congrArg Cell.count ?_)⟩
      rw [counts i inside]
      by_cases here : i = slot
      · rw [if_pos here, here, total_sources_succ b sent]
        rfl
      · rw [if_neg here, sources_succ, if_neg (by simpa [sent] using Ne.symm here),
          List.append_nil]
        rfl

/-- From the turn on, each slot is a sum of weights that goes on from there. -/
theorem gathered_reals {n turn : Nat} (within : n ≤ b.length) (past : turn < n)
    (turns : b.Turns (sources target b.length) turn)
    (first : ∀ q < turn, ¬ b.Turns (sources target b.length) q) :
    (b.gathered length target n).turned = true ∧ ∀ i < length,
      (b.gathered length target n).get i = b.mergedFrom turn (sources target n i) := by
  induction n with
  | zero => contradiction
  | succ n ih =>
    rw [gathered_succ, send]
    rcases Nat.lt_succ_iff_lt_or_eq.mp past with past | rfl
    · obtain ⟨turned, reals⟩ := ih (by omega) past
      cases sent : target n with
      | none =>
        refine ⟨turned, fun i below => ?_⟩
        rw [reals i below, sources_succ, sent, if_neg (by simp), List.append_nil]
      | some slot =>
        obtain ⟨turned, added⟩ := addFrom_of_spills (b.gathered length target n)
          (i := slot) (j := n) free (kind_gathered ..) (.inl turned)
        refine ⟨turned, fun i small => ?_⟩
        rw [added i ((length_gathered ..).symm ▸ small), reals i small, sources_succ]
        by_cases here : i = slot
        · rw [if_pos here, if_pos (here ▸ sent), mergedFrom_append (Nat.le_of_lt past)]
        · rw [if_neg here, if_neg (by simpa [sent] using Ne.symm here), List.append_nil]
          rfl
    · obtain ⟨_, counts⟩ := gathered_counts free lands (by omega) first
      obtain ⟨below, slot, sent, spills⟩ := turns_sources.mp turns
      have held : ((b.gathered length target turn).get slot).tally =
          b.total (sources target turn slot) := by
        rw [counts slot (lands turn below slot sent)]
        rfl
      rw [total_sources_succ b sent, ← held] at spills
      obtain ⟨turned, added⟩ := addFrom_of_spills (b.gathered length target turn)
        (i := slot) (j := turn) free (kind_gathered ..) (.inr spills)
      rw [sent]
      refine ⟨turned, fun i small => ?_⟩
      have before : b.mergedFrom turn (sources target turn i) =
          .real ((b.gathered length target turn).get i).value := by
        rw [counts i small]
        exact mergedFrom_of_below fun j among => lt_of_mem_sources among
      rw [added i ((length_gathered ..).symm ▸ small), sources_succ]
      by_cases here : i = slot
      · rw [if_pos here, if_pos (here ▸ sent), mergedFrom_append (Nat.le_refl turn), before]
        rfl
      · rw [if_neg here, if_neg (by simpa [sent] using Ne.symm here), List.append_nil, before]

end Turning

theorem total_lt_of_not_turns (whole : ∀ p, ¬ b.Turns (sources target b.length) p) {n : Nat}
    (within : n ≤ b.length) (i : Nat) : b.total (sources target n i) < 2 ^ 64 := by
  induction n with
  | zero => exact Nat.two_pow_pos 64
  | succ n ih =>
    by_cases here : target n = some i
    · refine Nat.lt_of_not_le fun large => whole n (turns_sources.mpr ?_)
      exact ⟨within, i, here, .inr large⟩
    · rw [sources_succ, if_neg here, List.append_nil]
      exact ih (by omega)

theorem get_foldl_send_of_counts (free : b.kind = .unlimited) {js : List Nat} {out : Bins} {n : Nat}
    (same : out.kind = b.kind) (single : out.length = 1) (unturned : out.turned = false)
    (counts : ∀ j ∈ js, (b.get j).isReal = false) (held : out.get 0 = .count n)
    (fits : n + b.total js < 2 ^ 64) :
    (js.foldl (b.send fun _ => some 0) out).get 0 = .count (n + b.total js) := by
  induction js generalizing out n with
  | nil => exact held
  | cons j js ih =>
    obtain ⟨count, counts⟩ := List.forall_mem_cons.mp counts
    have split : b.total (j :: js) = (b.get j).tally + b.total js := rfl
    have tally : (out.get 0).tally = n := held ▸ rfl
    rw [split, ← Nat.add_assoc] at fits ⊢
    obtain ⟨unturned, added⟩ := addFrom_of_fits out (i := 0) free same unturned count
      (single ▸ Nat.one_pos) (by omega)
    have next := added 0
    rw [if_pos rfl, tally] at next
    refine ih ?_ ?_ unturned counts next fits
    · exact (kind_addFrom ..).trans same
    · exact (length_addFrom ..).trans single

/-- Counts whose total is a word merge into that total. -/
theorem merged_counts (free : b.kind = .unlimited) {js : List Nat}
    (counts : ∀ j ∈ js, (b.get j).isReal = false) (fits : b.total js < 2 ^ 64) :
    b.merged js = .count (b.total js) := by
  have unturned : (empty b.kind 1).turned = false := by
    rw [free]
    rfl
  have held : (empty b.kind 1).get 0 = .count 0 := by
    rw [get_empty, free]
    rfl
  rw [merged_eq_foldl, get_foldl_send_of_counts free (kind_empty ..) (length_empty ..) unturned
    counts held (by omega), Nat.zero_add]

/-- A gather merges into every slot the cells that are sent there, with one
turning position for all slots. -/
theorem get_gather {length : Nat} (lands : ∀ p < b.length, ∀ i, target p = some i → i < length) :
    ∃ turn, b.Turning (sources target b.length) turn ∧ ∀ i < length,
      (b.gather length target).get i = b.mergedWith turn (sources target b.length i) := by
  by_cases free : b.kind = .unlimited
  · by_cases turns : ∃ p, b.Turns (sources target b.length) p
    · classical
      refine ⟨some (Nat.find turns), ⟨free, Nat.find_spec turns, fun q => Nat.find_min turns⟩, ?_⟩
      obtain ⟨below, _⟩ := turns_sources.mp (Nat.find_spec turns)
      exact (gathered_reals free lands (Nat.le_refl _) below (Nat.find_spec turns)
        fun q => Nat.find_min turns).2
    · have whole := not_exists.mp turns
      refine ⟨none, fun _ => whole, fun i below => ?_⟩
      have counts : ∀ j ∈ sources target b.length i, (b.get j).isReal = false := by
        intro j among
        rw [← Bool.not_eq_true]
        intro real
        exact whole j ⟨i, among, .inl real⟩
      rw [mergedWith, merged_counts free counts (total_lt_of_not_turns whole (Nat.le_refl _) i)]
      exact (gathered_counts free lands (Nat.le_refl _) fun p _ => whole p).2 i below
  · exact ⟨none, fun same => absurd same free, fun i below => get_gather_of_apart free below⟩

end Binning.Bins
