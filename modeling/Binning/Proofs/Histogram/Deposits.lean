import Binning.Proofs.Histogram.Failures
import Binning.Proofs.Histogram.Ledger

/-! Runs of deposits into whole counts: entries, entries from writers that share the
bins, and the contents of other histograms. The run keeps a ledger of what each cell
has received, and the cells hold its balance as far as their counters go. -/
namespace Binning.Histogram
open Results

inductive Deposit where
  | entry (coords : List Coord) (weight sample : Option Float)
  /-- An entry from a writer that shares the bins with others. -/
  | shared (coords : List Coord)
  /-- The contents of another histogram, with all that its cells have received. -/
  | counts (other : Histogram) (received : Ledger)

/-- The histogram with one more deposit, if it is accepted. -/
def deposit (r : Registry) (h : Histogram) : Deposit → Except Error Histogram
  | .entry coords weight sample => h.record r coords weight sample
  | .shared coords => h.recordShared coords
  | .counts other _ => h.add other

/-- What is added from another histogram is what that one has received. -/
def Deposit.Audited : Deposit → Prop
  | .entry .. | .shared _ => True
  | .counts other received => other.Audited received

/-- The histogram after a run of deposits, all of which are accepted. -/
def deposits (r : Registry) (h : Histogram) (ds : List Deposit) : Except Error Histogram :=
  ds.foldlM (deposit r) h

/-! ### The ledger of a run -/

/-- Where an accepted deposit leaves the cell at some indices. -/
def move (h next : Histogram) : Deposit → List Int → List Int
  | .entry coords _ _, is | .shared coords, is =>
    match h.locate coords with
    | .ok placements => carry h.bareAxes placements next.bareAxes is
    | .error _ => is
  | .counts .., is => is

/-- What an entry at some coordinates adds. -/
def creditAt (h next : Histogram) (coords : List Coord) (weight : Option Float) : Ledger :=
  match h.locate coords with
  | .ok placements => next.credit placements weight
  | .error _ => []

/-- What an accepted deposit adds. -/
def credits (h next : Histogram) : Deposit → Ledger
  | .entry coords weight _ => h.creditAt next coords weight
  | .shared coords => h.creditAt next coords none
  | .counts _ received => received

/-- The ledger after an accepted deposit. -/
def post (h next : Histogram) (d : Deposit) (ledger : Ledger) : Ledger :=
  ledger.moved (h.move next d) ++ h.credits next d

/-- The ledger after a run. -/
def account (r : Registry) (h : Histogram) (ledger : Ledger) : List Deposit → Ledger
  | [] => ledger
  | d :: ds =>
    match h.deposit r d with
    | .ok next => account r next (h.post next d ledger) ds
    | .error _ => ledger

/-- Where a run leaves the cell at some indices. -/
def carried (r : Registry) (h : Histogram) : List Deposit → List Int → List Int
  | [], is => is
  | d :: ds, is =>
    match h.deposit r d with
    | .ok next => carried r next ds (h.move next d is)
    | .error _ => is

variable {r : Registry} {h next last other : Histogram} {d : Deposit} {ds : List Deposit}
  {coords : List Coord} {ledger : Ledger} {is : List Int} {n : Nat}

theorem deposits_cons_eq_ok : h.deposits r (d :: ds) = .ok last ↔
    ∃ next, h.deposit r d = .ok next ∧ next.deposits r ds = .ok last := by
  rw [deposits, List.foldlM_cons, bind_eq_ok]
  rfl

theorem account_of_ok (done : h.deposit r d = .ok next) :
    h.account r ledger (d :: ds) = next.account r (h.post next d ledger) ds := by
  rw [account, done]

theorem carried_of_ok (done : h.deposit r d = .ok next) :
    h.carried r (d :: ds) is = next.carried r ds (h.move next d is) := by
  rw [carried, done]

/-- What a cell has received is found again where the run leaves the cell. -/
theorem balance_le_account (run : h.deposits r ds = .ok last) :
    ledger.balance is ≤ (h.account r ledger ds).balance (h.carried r ds is) := by
  induction ds generalizing h ledger is with
  | nil => exact Nat.le_refl _
  | cons d ds ih =>
    obtain ⟨next, done, run⟩ := deposits_cons_eq_ok.mp run
    rw [account_of_ok done, carried_of_ok done]
    refine Nat.le_trans ?_ (ih run)
    rw [post, Ledger.balance_append]
    exact Nat.le_add_right_of_le Ledger.balance_le_moved

/-! ### One deposit -/

/-- An entry from a writer that shares the bins is recorded as any other. -/
theorem record_of_recordShared (integral : h.storage.kind.isIntegral = true)
    (done : h.recordShared coords = .ok next) : h.record r coords none none = .ok next := by
  obtain ⟨_, fixed, placements, located, rfl⟩ := recordShared_eq_ok done
  have room : h.roomFor r placements = .ok h := roomFor_of_fixed fixed located
  rw [record_eq_bind, StorageKind.checkEntry_none integral, located]
  change (h.roomFor r placements >>= _) = _
  rw [room]
  rfl

theorem move_of_located {placements : List Axis.Placement}
    (located : h.locate coords = .ok placements) (weight sample : Option Float) :
    h.move next (.entry coords weight sample) =
      carry h.bareAxes placements next.bareAxes := by
  funext is
  simp only [move, located]

theorem post_of_located {placements : List Axis.Placement}
    (located : h.locate coords = .ok placements) (weight sample : Option Float) :
    h.post next (.entry coords weight sample) ledger =
      ledger.moved (carry h.bareAxes placements next.bareAxes) ++
        next.credit placements weight := by
  simp only [post, move_of_located located, credits, creditAt, located]

/-- The ledger follows the entry and the growth in front of it. -/
theorem Posted.record (posted : Posted h ledger) (sound : h.Sound)
    (integral : h.bins.kind.isIntegral = true) (keeps : r.KeepsShape)
    {weight sample : Option Float} (done : h.record r coords weight sample = .ok next)
    (allocated : next.Allocated) :
    Posted next (h.post next (.entry coords weight sample) ledger) := by
  obtain ⟨admitted, placements, grown, located, grows, rfl⟩ := record_eq_ok done
  rw [sound.kind] at admitted
  have same := length_of_locate located
  obtain rfl := ((StorageKind.checkEntry_eq_ok integral).mp admitted).1
  rw [post_of_located located]
  change Posted _ (ledger.moved (carry h.bareAxes placements grown.bareAxes) ++
    grown.credit placements weight)
  rcases grows with ⟨rfl, stays⟩ | grows
  · rw [Ledger.moved_eq_self fun is among =>
      sound.carry_of_stays located stays (posted.addressed is among)]
    exact posted.enter sound integral same admitted
  · have grown_sound := sound.grow keeps located grows allocated
    have kind := kind_of_grow located grows
    have grown_posted := posted.grow sound integral keeps located grows allocated
    exact grown_posted.enter grown_sound (kind ▸ integral)
      (same.trans (rank_of_grow located grows).symm) (kind ▸ admitted)

theorem Posted.deposit (posted : Posted h ledger) (sound : h.Sound)
    (integral : h.bins.kind.isIntegral = true) (keeps : r.KeepsShape) (audited : d.Audited)
    (done : h.deposit r d = .ok next) (allocated : next.Allocated) :
    Posted next (h.post next d ledger) := by
  cases d with
  | entry coords weight sample => exact posted.record sound integral keeps done allocated
  | shared coords =>
    have recorded := record_of_recordShared (r := r) (sound.kind ▸ integral) done
    have entered := posted.record sound integral keeps recorded allocated
    exact entered
  | counts other received =>
    have still : ledger.moved (h.move next (.counts other received)) = ledger :=
      Ledger.moved_eq_self fun _ _ => rfl
    rw [post, still]
    exact posted.add sound integral audited.reachable.sound audited.posted done

/-- Every cell has a slot where the entry leaves it. -/
theorem Sound.addresses_record (sound : h.Sound) (integral : h.bins.kind.isIntegral = true)
    (keeps : r.KeepsShape) {weight sample : Option Float}
    (done : h.record r coords weight sample = .ok next) (allocated : next.Allocated)
    (has : h.Addresses is) : next.Addresses (h.move next (.entry coords weight sample) is) := by
  obtain ⟨_, placements, grown, located, grows, rfl⟩ := record_eq_ok done
  rw [move_of_located located]
  rcases grows with ⟨rfl, stays⟩ | grows
  · change grown.Addresses (carry grown.bareAxes placements grown.bareAxes is)
    rw [sound.carry_of_stays located stays has]
    exact has
  · have apart := Bins.not_unlimited_of_isIntegral integral
    exact ((sound.grow_contents keeps located grows allocated apart).1 is has).1

theorem Sound.addresses_move (sound : h.Sound) (integral : h.bins.kind.isIntegral = true)
    (keeps : r.KeepsShape) (done : h.deposit r d = .ok next) (allocated : next.Allocated)
    (has : h.Addresses is) : next.Addresses (h.move next d is) := by
  cases d with
  | entry => exact sound.addresses_record integral keeps done allocated has
  | shared coords =>
    have recorded := record_of_recordShared (r := r) (sound.kind ▸ integral) done
    have arrives := sound.addresses_record integral keeps recorded allocated has
    exact arrives
  | counts other received =>
    obtain ⟨_, _, rfl⟩ := add_eq_ok.mp done
    exact has

theorem Sound.deposit (sound : h.Sound) (keeps : r.KeepsShape) (audited : d.Audited)
    (done : h.deposit r d = .ok next) (allocated : next.Allocated) : next.Sound := by
  cases d with
  | entry => exact sound.record keeps done allocated
  | shared coords =>
    obtain ⟨_, _, placements, _, rfl⟩ := recordShared_eq_ok done
    exact sound.enter ..
  | counts other received => exact sound.add audited.reachable.sound done

theorem kind_of_deposit (done : h.deposit r d = .ok next) : next.bins.kind = h.bins.kind := by
  cases d with
  | entry => exact kind_of_record done
  | shared coords =>
    obtain ⟨_, _, placements, _, rfl⟩ := recordShared_eq_ok done
    exact kind_enter ..
  | counts other =>
    obtain ⟨_, _, rfl⟩ := add_eq_ok.mp done
    exact Bins.kind_addAll ..

theorem larger_of_deposit (made : ∀ a ∈ h.axes, a.axis.Made) (keeps : r.KeepsShape)
    (done : h.deposit r d = .ok next) :
    (∀ a ∈ next.axes, a.axis.Made) ∧ Layout.volume h.extents ≤ Layout.volume next.extents := by
  cases d with
  | entry => exact larger_of_record made keeps done
  | shared coords =>
    obtain ⟨_, _, placements, _, rfl⟩ := recordShared_eq_ok done
    exact ⟨made, Nat.le_refl _⟩
  | counts other =>
    obtain ⟨_, _, rfl⟩ := add_eq_ok.mp done
    exact ⟨made, Nat.le_refl _⟩

/-! ### Runs -/

theorem volume_le_of_deposits (made : ∀ a ∈ h.axes, a.axis.Made) (keeps : r.KeepsShape)
    (run : h.deposits r ds = .ok last) :
    Layout.volume h.extents ≤ Layout.volume last.extents := by
  induction ds generalizing h with
  | nil =>
    cases run
    exact Nat.le_refl _
  | cons d ds ih =>
    obtain ⟨next, done, run⟩ := deposits_cons_eq_ok.mp run
    obtain ⟨made, larger⟩ := larger_of_deposit made keeps done
    exact Nat.le_trans larger (ih made run)

/-- What a run leaves of a histogram that holds a ledger. -/
structure Leaves (r : Registry) (h : Histogram) (ledger : Ledger) (ds : List Deposit)
    (last : Histogram) : Prop where
  sound : last.Sound
  kind : last.bins.kind = h.bins.kind
  posted : last.Posted (h.account r ledger ds)
  arrives : ∀ is, h.Addresses is → last.Addresses (h.carried r ds is)

/-- A run can be allocated all along if it can at its end. -/
theorem Posted.deposits (posted : Posted h ledger) (sound : h.Sound)
    (integral : h.bins.kind.isIntegral = true) (keeps : r.KeepsShape)
    (audited : ∀ d ∈ ds, d.Audited) (run : h.deposits r ds = .ok last)
    (allocated : last.Allocated) : Leaves r h ledger ds last := by
  induction ds generalizing h ledger with
  | nil =>
    cases run
    exact ⟨sound, rfl, posted, fun _ has => has⟩
  | cons d ds ih =>
    obtain ⟨next, done, run⟩ := deposits_cons_eq_ok.mp run
    obtain ⟨first, audited⟩ := List.forall_mem_cons.mp audited
    have larger := volume_le_of_deposits (larger_of_deposit sound.made keeps done).1 keeps run
    have fits : next.Allocated := Nat.lt_of_le_of_lt larger allocated
    have kind := kind_of_deposit done
    have rest := ih (posted.deposit sound integral keeps first done fits)
      (sound.deposit keeps first done fits) (kind ▸ integral) audited run
    refine ⟨rest.sound, rest.kind.trans kind, account_of_ok done ▸ rest.posted, fun is has => ?_⟩
    rw [carried_of_ok done]
    exact rest.arrives _ (sound.addresses_move integral keeps done fits has)

/-- A cell reads the balance of what it has received. -/
theorem Posted.contentAt (posted : Posted h ledger) (integral : h.bins.kind.isIntegral = true)
    {js : List Int} (has : h.Addresses js) :
    h.contentAt js = .ok (.count (h.bins.kind.hold (ledger.capped.balance js))) := by
  rw [contentAt_of_addresses has, Bins.get_eq_count integral, posted.held js has]

/-! ### Twins -/

/-- The same axes in the same family, with a storage of some kind. -/
structure Parallel (kind : StorageKind) (h other : Histogram) : Prop where
  kind : other.storage.kind = kind
  axes : other.axes = h.axes
  family : other.family = h.family

/-- The same deposit into a storage of some kind. -/
inductive Deposit.Twin (kind : StorageKind) : Deposit → Deposit → Prop where
  | entry (coords : List Coord) (weight sample : Option Float) :
      Twin kind (.entry coords weight sample) (.entry coords weight sample)
  | shared (coords : List Coord) : Twin kind (.shared coords) (.entry coords none none)
  | counts {other twin : Histogram} (received : Ledger) : Parallel kind other twin →
      Twin kind (.counts other received) (.counts twin received)

namespace Parallel
variable {kind : StorageKind} (parallel : Parallel kind h other)
include parallel

theorem bareAxes_eq : other.bareAxes = h.bareAxes := congrArg (List.map _) parallel.axes

theorem locate_eq (coords : List Coord) : other.locate coords = h.locate coords := by
  have rank : other.rank = h.rank := congrArg List.length parallel.axes
  rw [locate, locate, rank, parallel.bareAxes_eq]

/-- Counters that read the same have received the same. -/
theorem audited (sound : h.Sound) (integral : h.storage.kind.isIntegral = true)
    (reachable : other.Reachable)
    (same : ∀ is, other.contentAt is = h.contentAt is) : other.Audited h.holdings := by
  have integral : h.bins.kind.isIntegral = true := sound.kind ▸ integral
  have addresses (is : List Int) : other.Addresses is ↔ h.Addresses is := by
    rw [Addresses, Addresses, parallel.bareAxes_eq]
  refine ⟨reachable, fun js among => ?_, fun js has => ?_⟩
  · exact (addresses js).mpr ((sound.posted_holdings integral).addressed js among)
  · have here := (addresses js).mp has
    have reads := same js
    rw [contentAt_of_addresses has, contentAt_of_addresses here] at reads
    have tally : other.bins.tally (other.place js) = h.bins.tally (h.place js) :=
      congrArg Cell.tally (Except.ok.inj reads)
    rw [tally, sound.balance_capped_holdings integral here,
      StorageKind.hold_of_lt _ (sound.tally_lt integral (h.place js))]

theorem roomFor {placements : List Axis.Placement} {grown : Histogram}
    (room : h.roomFor r placements = .ok grown) :
    ∃ twin, other.roomFor r placements = .ok twin ∧ Parallel kind grown twin := by
  unfold Histogram.roomFor at room ⊢
  split at room
  next growing =>
    rw [if_pos growing]
    simp only [grow, bind_eq_ok, pure_eq_ok] at room
    obtain ⟨pairs, grows, rfl⟩ := room
    rw [← parallel.axes, ← parallel.family] at grows
    rw [grow, grows]
    exact ⟨_, rfl, parallel.kind, rfl, parallel.family⟩
  next still =>
    cases room
    rw [if_neg still]
    exact ⟨other, rfl, parallel⟩

theorem post_eq {twin : Histogram} (after : Parallel kind next twin) (coords : List Coord)
    (weight sample : Option Float) (ledger : Ledger) :
    other.post twin (.entry coords weight sample) ledger =
      h.post next (.entry coords weight sample) ledger := by
  have moves : other.move twin (.entry coords weight sample) =
      h.move next (.entry coords weight sample) := by
    funext is
    simp only [move, parallel.locate_eq, parallel.bareAxes_eq, after.bareAxes_eq]
  have adds : other.credits twin (.entry coords weight sample) =
      h.credits next (.entry coords weight sample) := by
    simp only [credits, creditAt, parallel.locate_eq, credit_of_bareAxes after.bareAxes_eq]
  rw [post, post, moves, adds]

theorem record (integral : h.storage.kind.isIntegral = true) (counts : kind.isIntegral = true)
    {weight sample : Option Float} (done : h.record r coords weight sample = .ok next) :
    ∃ twin, other.record r coords weight sample = .ok twin ∧ Parallel kind next twin := by
  simp only [record_eq_bind, bind_eq_ok, mapError_eq_ok, pure_eq_ok] at done ⊢
  obtain ⟨_, admitted, placements, located, grown, room, rfl⟩ := done
  obtain ⟨twin, others, after⟩ := parallel.roomFor room
  have taken : other.storage.kind.checkEntry weight sample = .ok () :=
    (StorageKind.checkEntry_eq_ok (parallel.kind ▸ counts)).mpr
      ((StorageKind.checkEntry_eq_ok integral).mp admitted)
  rw [← parallel.locate_eq] at located
  exact ⟨_, ⟨(), taken, placements, located, twin, others, rfl⟩, after.kind, after.axes,
    after.family⟩

theorem deposit (integral : h.storage.kind.isIntegral = true) (counts : kind.isIntegral = true)
    {e : Deposit} (twins : Deposit.Twin kind d e) (done : h.deposit r d = .ok next) :
    ∃ twin, other.deposit r e = .ok twin ∧ Parallel kind next twin ∧
      ∀ ledger, other.post twin e ledger = h.post next d ledger := by
  cases twins with
  | entry coords weight sample =>
    obtain ⟨twin, recorded, after⟩ := parallel.record integral counts done
    exact ⟨twin, recorded, after, parallel.post_eq after coords weight sample⟩
  | shared coords =>
    obtain ⟨twin, recorded, after⟩ :=
      parallel.record integral counts (record_of_recordShared (r := r) integral done)
    exact ⟨twin, recorded, after, parallel.post_eq after coords none none⟩
  | @counts added twin received others =>
    obtain ⟨axes, _, rfl⟩ := add_eq_ok.mp done
    have equal : (other.axes == twin.axes) = true := by
      rw [parallel.axes, others.axes]
      exact axes
    have kinds : other.storage.kind = twin.storage.kind := parallel.kind.trans others.kind.symm
    exact ⟨_, add_eq_ok.mpr ⟨equal, kinds, rfl⟩, ⟨parallel.kind, parallel.axes, parallel.family⟩,
      fun _ => rfl⟩

end Parallel

theorem storage_of_deposit (done : h.deposit r d = .ok next) : next.storage = h.storage := by
  cases d with
  | entry =>
    obtain ⟨_, _, grown, located, grows, rfl⟩ := record_eq_ok done
    rcases grows with ⟨rfl, _⟩ | grows
    · rfl
    · obtain ⟨_, _, parts⟩ := grow_eq_ok located grows
      change grown.storage = h.storage
      rw [parts]
  | shared coords =>
    obtain ⟨_, _, _, _, rfl⟩ := recordShared_eq_ok done
    rfl
  | counts other =>
    obtain ⟨_, _, rfl⟩ := add_eq_ok.mp done
    rfl

/-- A run is accepted in one storage of whole counts if it is in the other, and the
ledgers are the same. -/
theorem Parallel.deposits {kind : StorageKind} (parallel : Parallel kind h other)
    (integral : h.storage.kind.isIntegral = true) (counts : kind.isIntegral = true)
    {es : List Deposit} (twins : List.Forall₂ (Deposit.Twin kind) ds es)
    (run : h.deposits r ds = .ok last) : ∃ twin, other.deposits r es = .ok twin ∧
      Parallel kind last twin ∧ ∀ ledger, other.account r ledger es = h.account r ledger ds := by
  induction twins generalizing h other with
  | nil =>
    cases run
    exact ⟨other, rfl, parallel, fun _ => rfl⟩
  | cons first _ ih =>
    obtain ⟨next, done, run⟩ := deposits_cons_eq_ok.mp run
    obtain ⟨between, deposited, after, posts⟩ := parallel.deposit integral counts first done
    obtain ⟨twin, rest, same, accounts⟩ := ih after (storage_of_deposit done ▸ integral) run
    refine ⟨twin, deposits_cons_eq_ok.mpr ⟨between, deposited, rest⟩, same, fun ledger => ?_⟩
    rw [account_of_ok deposited, account_of_ok done, posts, accounts]

/-! ### Whole counts of a run -/

/-- What the cells read after a run, against all that they have received. -/
structure Accounts (r : Registry) (h : Histogram) (ledger : Ledger) (ds : List Deposit)
    (last : Histogram) : Prop where
  stops : h.storage.kind = .int → ∀ js, last.Addresses js → last.contentAt js =
    .ok (.count (min Word64.maxUnsigned ((h.account r ledger ds).balance js)))
  /-- A weight is capped before it is added, and the sum starts again. -/
  wraps : h.storage.kind = .atomicInt → ∀ js, last.Addresses js → last.contentAt js =
    .ok (.count ((h.account r ledger ds).capped.balance js % 2 ^ 64))
  /-- Every cell is found again, and has not gone down unless it started again. -/
  rises : ∀ is m, h.contentAt is = .ok (.count m) → ∃ n,
    last.contentAt (h.carried r ds is) = .ok (.count n) ∧
      (h.storage.kind = .int ∨ (h.account r ledger ds).balance (h.carried r ds is) < 2 ^ 64 →
        m ≤ n)

theorem Posted.accounts (posted : Posted h ledger) (sound : h.Sound)
    (integral : h.bins.kind.isIntegral = true) (keeps : r.KeepsShape)
    (audited : ∀ d ∈ ds, d.Audited) (run : h.deposits r ds = .ok last)
    (allocated : last.Allocated) : Accounts r h ledger ds last := by
  have leaves := posted.deposits sound integral keeps audited run allocated
  have kind := leaves.kind
  have reads {js : List Int} (has : last.Addresses js) :=
    leaves.posted.contentAt (kind ▸ integral) has
  rw [kind] at reads
  constructor
  case stops =>
    intro stops js has
    rw [sound.kind] at stops
    rw [reads has, stops, ← Ledger.min_balance_capped]
    rfl
  case wraps =>
    intro wraps js has
    rw [sound.kind] at wraps
    rw [reads has, wraps]
    rfl
  case rises =>
    intro is m found
    obtain ⟨has, content⟩ := contentAt_eq_ok.mp found
    refine ⟨_, reads (leaves.arrives is has), fun room => ?_⟩
    have larger : ledger.balance is ≤ (h.account r ledger ds).balance (h.carried r ds is) :=
      balance_le_account run
    rw [← Bins.tally_of_get content, posted.held is has]
    exact Ledger.hold_balance_le larger (sound.kind ▸ room)

/-- The balance of a cell is the same number in a counter that stops at the largest
word and in one that starts again behind it. -/
def Concurs (ledger : Ledger) (js : List Int) : Prop :=
  ledger.capped.balance js < 2 ^ 64 ∨ ledger.capped.balance js % 2 ^ 64 = Word64.maxUnsigned

theorem concurs_iff {js : List Int} : Concurs ledger js ↔
    ledger.capped.balance js % 2 ^ 64 = min Word64.maxUnsigned (ledger.balance js) := by
  rw [← Ledger.min_balance_capped, Concurs]
  unfold Word64.maxUnsigned
  omega

/-- Counters that stop at the largest word never go down and read the exact total that
each cell has received, up to there. Shared counters take the same run, and read the
same where the total is a word, or where it happens to start again at the largest. -/
theorem Reachable.deposits_accounted (reachable : h.Reachable)
    (integral : h.storage.kind.isIntegral = true) (keeps : r.KeepsShape)
    (audited : ∀ d ∈ ds, d.Audited) (run : h.deposits r ds = .ok last)
    (allocated : last.Allocated) :
    Accounts r h h.holdings ds last ∧
      ∀ shared es, h.storage.kind = .int → shared.Reachable → Parallel .atomicInt h shared →
        (∀ is, shared.contentAt is = h.contentAt is) →
        (∀ e ∈ es, e.Audited) → List.Forall₂ (Deposit.Twin .atomicInt) ds es →
        ∃ twin, shared.deposits r es = .ok twin ∧ twin.axes = last.axes ∧
          ∀ js, last.Addresses js → (twin.contentAt js = last.contentAt js ↔
            Concurs (h.account r h.holdings ds) js) := by
  have sound := reachable.sound
  have started := sound.posted_holdings (sound.kind ▸ integral)
  have accounts := started.accounts sound (sound.kind ▸ integral) keeps audited run allocated
  refine ⟨accounts, fun shared es stops others parallel same redeposited twins => ?_⟩
  obtain ⟨twin, rerun, after, account⟩ := parallel.deposits integral rfl twins run
  have shared_integral : shared.bins.kind.isIntegral = true := by
    rw [← others.sound.kind, parallel.kind]
    rfl
  have twin_allocated : twin.Allocated := by
    rw [Allocated, extents, after.bareAxes_eq]
    exact allocated
  have restarted := (parallel.audited sound integral others same).posted
  have twin_accounts :=
    restarted.accounts others.sound shared_integral keeps redeposited rerun twin_allocated
  refine ⟨twin, rerun, after.axes, fun js has => ?_⟩
  have there : twin.Addresses js := by
    rw [Addresses, after.bareAxes_eq]
    exact has
  rw [accounts.stops stops js has, twin_accounts.wraps parallel.kind js there, account, concurs_iff,
    Except.ok.injEq, Cell.count.injEq]

/-- The axes of `growingPair` with shared counters. -/
def sharedPair : Histogram where
  axes := growingPair.axes
  storage := ⟨⟨6, "AtomicInt", .main⟩, .atomicInt⟩
  bins := .empty .atomicInt 8
  family := .main

theorem reachable_sharedPair : sharedPair.Reachable := by
  have growing : Blueprint.build (.integer 0 2) { growth := true } none =
      .ok ⟨.integer ⟨0, 2⟩, { growth := true }, none⟩ := rfl
  have flowing : Blueprint.build (.integer 0 2) .flow none =
      .ok ⟨.integer ⟨0, 2⟩, .flow, none⟩ := rfl
  have new : Histogram.new .builtin sharedPair.axes .atomicInt = .ok sharedPair := rfl
  refine .new Registry.builtin_keepsShape ?_ new (by decide)
  exact List.forall_mem_cons.mpr ⟨.built growing, List.forall_mem_singleton.mpr (.built flowing)⟩

/-- One entry at the integers 0 and 0. -/
def once (h : Histogram) : Histogram := (h.fill .builtin [.int 0, .int 0]).state

theorem deposits_accounted_growingPair :
    let heavy := Deposit.entry [.int 3, .int 0] (some 5) none
    let deposits := [.counts growingPair.once growingPair.once.holdings, heavy]
    let others := [.counts sharedPair.once growingPair.once.holdings, heavy]
    ∃ last twin, growingPair.deposits .builtin deposits = .ok last ∧
      Accounts .builtin growingPair growingPair.holdings deposits last ∧
      sharedPair.deposits .builtin others = .ok twin ∧ twin.axes = last.axes ∧
      ∀ js, last.Addresses js → (twin.contentAt js = last.contentAt js ↔
        Concurs (growingPair.account .builtin growingPair.holdings deposits) js) := by
  intro heavy deposits others
  have first : growingPair.once.Audited growingPair.once.holdings :=
    (Reachable.fill reachable_growingPair Registry.builtin_keepsShape
      (by decide +kernel)).audited rfl
  have second : sharedPair.once.Audited growingPair.once.holdings := by
    have same : growingPair.once.holdings = sharedPair.once.holdings := by decide +kernel
    rw [same]
    exact (Reachable.fill reachable_sharedPair Registry.builtin_keepsShape
      (by decide +kernel)).audited rfl
  have audited : ∀ d ∈ deposits, d.Audited :=
    List.forall_mem_cons.mpr ⟨first, List.forall_mem_singleton.mpr trivial⟩
  have others_audited : ∀ e ∈ others, e.Audited :=
    List.forall_mem_cons.mpr ⟨second, List.forall_mem_singleton.mpr trivial⟩
  have cells (j : Nat) : sharedPair.bins.get j = growingPair.bins.get j :=
    (Bins.get_empty .atomicInt 8 j).trans (Bins.get_empty .int 8 j).symm
  have same (is : List Int) : sharedPair.contentAt is = growingPair.contentAt is := by
    simp only [contentAt, cells]
    rfl
  have run : growingPair.deposits .builtin deposits = .ok _ := rfl
  obtain ⟨accounts, twins⟩ := reachable_growingPair.deposits_accounted rfl
    Registry.builtin_keepsShape audited run (by decide +kernel)
  obtain ⟨twin, rerun, axes, agree⟩ := twins sharedPair others rfl reachable_sharedPair
    ⟨rfl, rfl, rfl⟩ same others_audited (.cons (.counts _ ⟨rfl, rfl, rfl⟩) (.cons (.entry ..) .nil))
  exact ⟨_, twin, run, accounts, rerun, axes, agree⟩

/-- One bin of the integer 0 with a shared counter. -/
def sharedBin : Histogram where
  axes := [⟨⟨2, "Integer", .main⟩, .integer ⟨0, 1⟩, .none, none⟩]
  storage := ⟨⟨6, "AtomicInt", .main⟩, .atomicInt⟩
  bins := .empty .atomicInt 1
  family := .main

/-- A weight that is larger than all words takes one entry away. -/
theorem not_rises_sharedBin : sharedBin.Reachable ∧ ∃ five four,
    sharedBin.deposits .builtin [.entry [.int 0] (some 5) none] = .ok five ∧
      five.deposits .builtin [.entry [.int 0] (some 1e20) none] = .ok four ∧
      five.contentAt [0] = .ok (.count 5) ∧ four.contentAt [0] = .ok (.count 4) := by
  have built : Blueprint.build (.integer 0 1) .none none = .ok ⟨.integer ⟨0, 1⟩, .none, none⟩ := rfl
  have new : Histogram.new .builtin sharedBin.axes .atomicInt = .ok sharedBin := rfl
  refine ⟨?_, _, _, rfl, rfl, rfl, rfl⟩
  exact .new Registry.builtin_keepsShape (List.forall_mem_singleton.mpr (.built built)) new
    (by decide)

end Binning.Histogram
