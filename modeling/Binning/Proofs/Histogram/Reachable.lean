import Binning.Proofs.Histogram.Reshape

/-! The histograms that a program can reach: new ones, and what filling and
reshaping makes of them. All of them are sound. -/
namespace Binning.Histogram

/-- The histograms that a program can reach, with converters that keep the shape
of an axis and as long as the bins can be allocated. -/
inductive Reachable : Histogram → Prop where
  | new {r : Registry} {axes : List ClassedAxis} {kind : StorageKind} {family : Family}
      {h : Histogram} :
      r.KeepsShape → (∀ a ∈ axes, a.axis.Made) →
        Histogram.new r axes kind family = .ok h → h.Allocated → Reachable h
  | fill {r : Registry} {h : Histogram} {coords : List Coord} {weight sample : Option Float} :
      Reachable h → r.KeepsShape → (h.fill r coords weight sample).state.Allocated →
        Reachable (h.fill r coords weight sample).state
  | fillAll {r : Registry} {h : Histogram} {coords : List (List Coord)} :
      Reachable h → r.KeepsShape → (h.fillAll r coords).state.Allocated →
        Reachable (h.fillAll r coords).state
  | fillValues {r : Registry} {h : Histogram} {values : List Coord} :
      Reachable h → r.KeepsShape → (h.fillValues r values).state.Allocated →
        Reachable (h.fillValues r values).state
  | fillShared {h : Histogram} (coords : List Coord) :
      Reachable h → Reachable (h.fillShared coords).state
  | index {r : Registry} {h selected : Histogram} {entries : List Index} :
      Reachable h → r.KeepsShape → h.index r entries = .ok (.histogram selected) →
        Reachable selected
  | project {r : Registry} {h projected : Histogram} {kept : List Nat} :
      Reachable h → r.KeepsShape → h.project r kept = .ok projected → Reachable projected
  | add {h other total : Histogram} :
      Reachable h → Reachable other → h.add other = .ok total → Reachable total
  | scale {h : Histogram} (factor : Float) : Reachable h → Reachable (h.scale factor).state
  | reset {h : Histogram} : Reachable h → Reachable h.reset

theorem Reachable.sound {h : Histogram} (reachable : h.Reachable) : h.Sound := by
  induction reachable with
  | new keeps made done allocated => exact sound_new keeps made done allocated
  | fill _ keeps allocated sound => exact sound.fill keeps allocated
  | fillAll _ keeps allocated sound => exact sound.fillAll keeps _ allocated
  | fillValues _ keeps allocated sound => exact sound.fillValues keeps allocated
  | fillShared coords _ sound => exact sound.fillShared coords
  | index _ keeps done sound => exact sound.index keeps done
  | project _ keeps done sound => exact sound.project keeps done
  | add _ _ done sound others => exact sound.add others done
  | scale factor _ sound => exact sound.scale factor
  | reset _ sound => exact sound.reset

/-! ### A small one -/

/-- Two axes of the integers 0 and 1, where the first grows and the second has
flow bins. -/
def growingPair : Histogram where
  axes :=
    [⟨⟨2, "Integer", .main⟩, .integer ⟨0, 2⟩, { growth := true }, none⟩,
      ⟨⟨2, "Integer", .main⟩, .integer ⟨0, 2⟩, .flow, none⟩]
  storage := ⟨⟨4, "Int", .main⟩, .int⟩
  bins := .empty .int 8
  family := .main

theorem reachable_growingPair : growingPair.Reachable := by
  have growing : Blueprint.build (.integer 0 2) { growth := true } none =
      .ok ⟨.integer ⟨0, 2⟩, { growth := true }, none⟩ := rfl
  have flowing : Blueprint.build (.integer 0 2) .flow none =
      .ok ⟨.integer ⟨0, 2⟩, .flow, none⟩ := rfl
  have new : Histogram.new .builtin growingPair.axes .int = .ok growingPair := rfl
  refine .new Registry.builtin_keepsShape ?_ new (by decide)
  exact List.forall_mem_cons.mpr ⟨.built growing, List.forall_mem_singleton.mpr (.built flowing)⟩

end Binning.Histogram
