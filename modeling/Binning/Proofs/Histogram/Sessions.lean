import Binning.Proofs.Histogram.Twins
import Binning.Proofs.Registry.Registered

/-! Sessions: histograms are made, filled, cut and summed, one operation after the other.
In which family each of them is made, and whether its axes are asked for by a current or by
an older name, shows in the classes and in nothing else. -/
namespace Binning
open Results
open Index (Alike)

variable {r : Registry}

/-! ### Axes -/

/-- How an axis is asked for: with settings, by the current or by the older name, with
keywords, or with all of its options. -/
inductive Construction where
  | settings (b : Blueprint) (given : Settings) (retired : Bool)
  | keywords (b : Blueprint) (given : Keywords)
  | native (b : Blueprint) (requested : Options) (label : Option String)

namespace Construction

def make (r : Registry) : Construction → Except Error ClassedAxis
  | .settings b given retired =>
    if retired then ClassedAxis.makeRetired r b given else ClassedAxis.make r b given
  | .keywords b given => ClassedAxis.ofKeywords r b given
  | .native b requested label => do
    ClassedAxis.ofAxis r (← (b.build requested label).mapError .config)

/-- The same axis, each time by the one name or by the other. -/
inductive Twin : Construction → Construction → Prop where
  | settings (b : Blueprint) (given : Settings) (here there : Bool) :
      Twin (.settings b given here) (.settings b given there)
  | keywords (b : Blueprint) (given : Keywords) : Twin (.keywords b given) (.keywords b given)
  | native (b : Blueprint) (requested : Options) (label : Option String) :
      Twin (.native b requested label) (.native b requested label)

end Construction

/-- The older names of the axis classes stay known. -/
theorem Registry.Known.lookup_lawName (known : r.Known) (b : Blueprint) :
    ∃ cls, r.lookup b.lawName .main = some cls := by
  obtain ⟨_, registered⟩ := Registered.of_known known
  have retired : b.lawName ∈ retiredClasses := by
    cases b <;> simp [retiredClasses, Blueprint.lawName]
  obtain ⟨e, among, name, main, _⟩ := registered.ordered.retired _ retired
  apply Option.isSome_iff_exists.mp
  rw [lookup, Option.isSome_map, List.find?_isSome]
  exact ⟨e, among, decide_eq_true ⟨name, main⟩⟩

namespace Construction

theorem axis_make (known : r.Known) (b : Blueprint) (given : Settings) (retired : Bool) :
    ClassedAxis.axis <$> (settings b given retired).make r =
      ClassedAxis.axis <$> ClassedAxis.make r b given := by
  cases retired with
  | false => rfl
  | true =>
    obtain ⟨cls, found⟩ := known.lookup_lawName b
    change ClassedAxis.axis <$> ClassedAxis.makeRetired r b given = _
    unfold ClassedAxis.makeRetired
    rw [found]
    cases ClassedAxis.make r b given <;> rfl

theorem Twin.make (known : r.Known) {here there : Construction} (twin : Twin here there) :
    Alike (fun c d => d.axis = c.axis) (here.make r) (there.make r) := by
  cases twin with
  | settings b given here there =>
    exact .of_map_eq ((axis_make known b given there).trans (axis_make known b given here).symm)
  | keywords | native => exact .self fun _ _ => rfl

theorem Twin.makeAll (known : r.Known) {asked others : List Construction}
    (twins : List.Forall₂ Twin asked others) :
    Alike (fun cs ds => ds.map ClassedAxis.axis = cs.map ClassedAxis.axis)
      (asked.mapM (·.make r)) (others.mapM (·.make r)) := by
  induction twins with
  | nil => exact .ok rfl
  | cons first _ ih =>
    rw [List.mapM_cons, List.mapM_cons]
    refine (first.make known).bind fun _ _ head => ih.bind fun _ _ tail => ?_
    exact .ok (congrArg₂ List.cons head tail)

end Construction

/-! ### Operations -/

/-- An operation that changes a histogram in place. -/
inductive Change where
  | fill (coords : List Coord) (weight sample : Option Float)
  | fillAll (samples : List (List Coord))
  | fillValues (values : List Coord)
  | fillShared (coords : List Coord)
  | scale (factor : Float)
  | reset

def Change.run (r : Registry) (h : Histogram) : Change → Histogram.Outcome
  | .fill coords weight sample => h.fill r coords weight sample
  | .fillAll samples => h.fillAll r samples
  | .fillValues values => h.fillValues r values
  | .fillShared coords => h.fillShared coords
  | .scale factor => h.scale factor
  | .reset => ⟨h.reset, .ok ()⟩

/-- An operation that reads a histogram and gives a cell or another histogram. -/
inductive Query where
  | index (entries : List Index)
  | project (kept : List Nat)
  | content (indices : List Int)
  | sum (flow : Bool)

def Query.run (r : Registry) (h : Histogram) : Query → Except Error Selection
  | .index entries => h.index r entries
  | .project kept => .histogram <$> h.project r kept
  | .content indices => .value <$> (h.contentAt indices).mapError .index
  | .sum flow => .ok (.value (h.sum flow))

/-- Histograms are called by their places in the order in which they came. -/
inductive Operation where
  | new (axes : List Construction) (kind : StorageKind) (family : Family)
  | change (target : Nat) (c : Change)
  | query (target : Nat) (q : Query)
  | add (left right : Nat)

/-- What an operation answers, if there is something to answer, and the histograms that
there are then. -/
structure Reply where
  answer : Except Error (Option Selection)
  store : List Histogram

namespace Reply

/-- What is left in place stands in the place of what there was. -/
def put (store : List Histogram) (target : Nat) (out : Histogram.Outcome) : Reply :=
  ⟨(fun _ => none) <$> out.result, store.set target out.state⟩

/-- A new histogram is answered and kept. -/
def keep (store : List Histogram) : Except Error Selection → Reply
  | .ok (.histogram h) => ⟨.ok (some (.histogram h)), store ++ [h]⟩
  | .ok (.value cell) => ⟨.ok (some (.value cell)), store⟩
  | .error e => ⟨.error e, store⟩

/-- Nothing is done to a histogram that does not exist. -/
def atPlace (store : List Histogram) (target : Nat) (f : Histogram → Reply) : Reply :=
  match store[target]? with
  | some h => f h
  | none => ⟨.ok none, store⟩

/-- The same answer or the same error, and histograms that differ in classes only. -/
structure Twin (left right : Reply) : Prop where
  answer : Alike (Option.Rel Selection.Twin) left.answer right.answer
  store : List.Forall₂ Histogram.Twin left.store right.store

end Reply

namespace Operation

def run (r : Registry) (store : List Histogram) : Operation → Reply
  | .new axes kind family => .keep store do
    .histogram <$> Histogram.new r (← axes.mapM (·.make r)) kind family
  | .change target c => .atPlace store target fun h => .put store target (c.run r h)
  | .query target q => .atPlace store target fun h => .keep store (q.run r h)
  | .add left right =>
    .atPlace store left fun h => .atPlace store right fun k => .keep store (.histogram <$> h.add k)

/-- The same operation, with each new histogram in some family and each of its axes by the
one name or by the other. -/
inductive Twin : Operation → Operation → Prop where
  | new {axes others : List Construction} (kind : StorageKind) (family other : Family) :
      List.Forall₂ Construction.Twin axes others →
        Twin (.new axes kind family) (.new others kind other)
  | change (target : Nat) (c : Change) : Twin (.change target c) (.change target c)
  | query (target : Nat) (q : Query) : Twin (.query target q) (.query target q)
  | add (left right : Nat) : Twin (.add left right) (.add left right)

end Operation

/-- The replies to one operation after the other. -/
def session (r : Registry) (store : List Histogram) : List Operation → List Reply
  | [] => []
  | op :: rest => op.run r store :: session r (op.run r store).store rest

/-! ### One step -/

section Step
variable (covers : r.Covers) (plain : r.Plain)
include covers plain

theorem Change.twin_run {h g : Histogram} (twin : h.Twin g) (c : Change) :
    (c.run r h).Twin (c.run r g) := by
  cases c with
  | fill coords weight sample => exact twin.fill covers plain coords weight sample
  | fillAll samples => exact twin.fillAll covers plain samples
  | fillValues values => exact twin.fillValues covers plain values
  | fillShared coords => exact twin.fillShared coords
  | scale factor => exact twin.scale factor
  | reset => exact ⟨twin.reset, rfl⟩

theorem Query.alike_run {h g : Histogram} (twin : h.Twin g) (q : Query) :
    Alike Selection.Twin (q.run r h) (q.run r g) := by
  cases q with
  | index entries => exact twin.index covers plain entries
  | project kept =>
    exact (twin.project covers plain kept).bind fun _ _ after => .ok (.histogram after)
  | content indices =>
    simp only [run, twin.contentAt_eq]
    refine .bind_self fun cell => ?_
    exact .ok (.value cell)
  | sum flow =>
    simp only [run, twin.sum_eq]
    exact .ok (.value _)

end Step

theorem rel_getElem? {α β : Type} {R : α → β → Prop} {xs : List α} {ys : List β}
    (related : List.Forall₂ R xs ys) (i : Nat) : Option.Rel R xs[i]? ys[i]? := by
  induction related generalizing i with
  | nil => exact .none
  | cons first _ ih =>
    cases i with
    | zero => exact .some first
    | succ i => exact ih i

theorem forall₂_set {α β : Type} {R : α → β → Prop} {xs : List α} {ys : List β}
    (related : List.Forall₂ R xs ys) (i : Nat) {x : α} {y : β} (new : R x y) :
    List.Forall₂ R (xs.set i x) (ys.set i y) := by
  induction related generalizing i with
  | nil => exact .nil
  | cons first rest ih =>
    cases i with
    | zero => exact .cons new rest
    | succ i => exact .cons first (ih i)

section Stores
variable {store others : List Histogram} (twins : List.Forall₂ Histogram.Twin store others)
include twins

theorem Reply.twin_put (target : Nat) {out other : Histogram.Outcome} (twin : out.Twin other) :
    (put store target out).Twin (put others target other) := by
  refine ⟨?_, forall₂_set twins target twin.state⟩
  simp only [put, twin.result]
  refine .bind_self fun _ => ?_
  exact .ok .none

theorem Reply.twin_keep {x y : Except Error Selection} (alike : Alike Selection.Twin x y) :
    (keep store x).Twin (keep others y) := by
  cases alike with
  | error e => exact ⟨.error e, twins⟩
  | ok same =>
    cases same with
    | value cell => exact ⟨.ok (.some (.value cell)), twins⟩
    | histogram twin =>
      exact ⟨.ok (.some (.histogram twin)), List.rel_append twins (.cons twin .nil)⟩

theorem Reply.twin_atPlace (target : Nat) {f k : Histogram → Reply}
    (each : ∀ h g, h.Twin g → (f h).Twin (k g)) :
    (atPlace store target f).Twin (atPlace others target k) := by
  have found := rel_getElem? twins target
  unfold atPlace
  generalize store[target]? = here, others[target]? = there at found
  cases found with
  | none => exact ⟨.ok .none, twins⟩
  | some twin => exact each _ _ twin

/-- One step keeps the histograms of two sessions alike and gives the same answer. -/
theorem Operation.twin_run (known : r.Known) (plain : r.Plain) {op other : Operation}
    (same : Twin op other) : (op.run r store).Twin (other.run r others) := by
  have covers := known.covers
  cases same with
  | new kind family foreign asked =>
    apply Reply.twin_keep twins
    refine (Construction.Twin.makeAll known asked).bind fun cs ds axes => ?_
    refine (Histogram.alike_new covers plain axes kind family foreign).bind fun _ _ new => ?_
    exact .ok (.histogram new)
  | change target c =>
    refine Reply.twin_atPlace twins target fun h g twin => ?_
    exact Reply.twin_put twins target (c.twin_run covers plain twin)
  | query target q =>
    refine Reply.twin_atPlace twins target fun h g twin => ?_
    exact Reply.twin_keep twins (q.alike_run covers plain twin)
  | add left right =>
    refine Reply.twin_atPlace twins left fun h g here => ?_
    refine Reply.twin_atPlace twins right fun k l there => ?_
    refine Reply.twin_keep twins ((here.add there).bind fun _ _ total => ?_)
    exact .ok (.histogram total)

/-! ### Sessions -/

theorem twin_session (known : r.Known) (plain : r.Plain) {ops otherOps : List Operation}
    (same : List.Forall₂ Operation.Twin ops otherOps) :
    List.Forall₂ Reply.Twin (session r store ops) (session r others otherOps) := by
  induction same generalizing store others with
  | nil => exact .nil
  | cons first _ ih =>
    have step := Operation.twin_run twins known plain first
    exact .cons step (ih step.store)

end Stores

/-- Two sessions that differ in families and in older names for axes give the same answers
and the same errors, and at each step the histograms differ in classes only. -/
theorem session_families (known : r.Known) (plain : r.Plain) {ops others : List Operation}
    (same : List.Forall₂ Operation.Twin ops others) :
    List.Forall₂ Reply.Twin (session r [] ops) (session r [] others) :=
  twin_session .nil known plain same

/-- An axis that grows and one that does not, an entry that is beyond both, a projection, a sum
and a factor that counts do not take. -/
def brief (retired : Bool) (family : Family) : List Operation :=
  [.new [.settings (.integer 0 2) { options := { growth := true } } retired,
      .settings (.integer 0 2) {} (!retired)] .int family,
    .change 0 (.fill [.int 3, .int 3] none none),
    .query 0 (.project [1]),
    .add 1 1,
    .change 0 (.scale 2)]

/-- The classes that there are at the end. -/
def lastClasses (replies : List Reply) : List (List String) :=
  replies.getLast?.elim [] fun reply => reply.store.map fun h => h.axes.map (·.cls.name)

theorem session_families_brief :
    List.Forall₂ Operation.Twin (brief false .main) (brief true .native) ∧
      List.Forall₂ Reply.Twin (session .builtin [] (brief false .main))
        (session .builtin [] (brief true .native)) ∧
      lastClasses (session .builtin [] (brief false .main)) =
        [["Integer", "Integer"], ["Integer"], ["Integer"]] ∧
      lastClasses (session .builtin [] (brief true .native)) =
        [["integer_growth", "integer_uoflow"], ["integer_uoflow"], ["integer_uoflow"]] := by
  have same : List.Forall₂ Operation.Twin (brief false .main) (brief true .native) :=
    .cons (.new .int .main .native (.cons (.settings ..) (.cons (.settings ..) .nil)))
      (.cons (.change ..) (.cons (.query ..) (.cons (.add ..) (.cons (.change ..) .nil))))
  refine ⟨same, session_families .builtin Registry.builtin_plain same, ?_, ?_⟩
  · decide +kernel
  · decide +kernel

end Binning
