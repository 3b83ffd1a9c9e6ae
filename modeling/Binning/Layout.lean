/-! Row-major layouts: positions in a flat buffer against tuples of one slot
per axis, the last axis running fastest. Inside the extents the two directions
are inverse to each other. -/
namespace Binning.Layout

def volume (extents : List Nat) : Nat := extents.foldr (· * ·) 1

/-- One slot for each extent, below it. -/
inductive Inside : List Nat → List Nat → Prop where
  | nil : Inside [] []
  | cons {extent slot : Nat} {extents slots : List Nat} :
      slot < extent → Inside extents slots → Inside (extent :: extents) (slot :: slots)

def position : List Nat → List Nat → Nat
  | _ :: extents, slot :: slots => slot * volume extents + position extents slots
  | _, _ => 0

def tuple : List Nat → Nat → List Nat
  | [], _ => []
  | _ :: extents, p => p / volume extents :: tuple extents (p % volume extents)

/-- Every tuple inside the extents, in the order of the positions. -/
def tuples : List Nat → List (List Nat)
  | [] => [[]]
  | extent :: extents => (List.range extent).flatMap fun slot => (tuples extents).map (slot :: ·)

@[simp] theorem volume_nil : volume [] = 1 := rfl

@[simp] theorem volume_cons (extent : Nat) (extents : List Nat) :
    volume (extent :: extents) = extent * volume extents := rfl

theorem volume_pos {extents : List Nat} (positive : 0 ∉ extents) : 0 < volume extents := by
  induction extents with
  | nil => decide
  | cons extent extents ih =>
    obtain ⟨head, tail⟩ := List.ne_and_not_mem_of_not_mem_cons positive
    exact Nat.mul_pos (Nat.pos_of_ne_zero head.symm) (ih tail)

theorem Inside.length_eq {extents slots : List Nat} (inside : Inside extents slots) :
    slots.length = extents.length := by
  induction inside with
  | nil => rfl
  | cons _ _ ih => exact congrArg Nat.succ ih

theorem Inside.position_lt {extents slots : List Nat} (inside : Inside extents slots) :
    position extents slots < volume extents := by
  induction inside with
  | nil => decide
  | @cons extent slot extents slots below _ ih =>
    calc slot * volume extents + position extents slots
        < slot * volume extents + volume extents := Nat.add_lt_add_left ih _
      _ = (slot + 1) * volume extents := (Nat.succ_mul ..).symm
      _ ≤ extent * volume extents := Nat.mul_le_mul_right _ below

theorem Inside.tuple_position {extents slots : List Nat} (inside : Inside extents slots) :
    tuple extents (position extents slots) = slots := by
  induction inside with
  | nil => rfl
  | @cons extent slot extents slots below inside ih =>
    have small := inside.position_lt
    have quotient : (slot * volume extents + position extents slots) / volume extents = slot :=
      Nat.div_eq_of_lt_le (Nat.le_add_right ..) (by rw [Nat.succ_mul]; omega)
    have remainder : (slot * volume extents + position extents slots) % volume extents =
        position extents slots := by
      rw [Nat.mul_add_mod_self_right, Nat.mod_eq_of_lt small]
    rw [position, tuple, quotient, remainder, ih]

theorem inside_tuple {extents : List Nat} {p : Nat} (below : p < volume extents) :
    Inside extents (tuple extents p) := by
  induction extents generalizing p with
  | nil => exact .nil
  | cons extent extents ih =>
    have inner : 0 < volume extents := Nat.pos_of_lt_mul_left below
    exact .cons (Nat.div_lt_of_lt_mul (Nat.mul_comm extent _ ▸ below)) (ih (Nat.mod_lt p inner))

theorem position_tuple {extents : List Nat} {p : Nat} (below : p < volume extents) :
    position extents (tuple extents p) = p := by
  induction extents generalizing p with
  | nil => exact (Nat.lt_one_iff.mp below).symm
  | cons extent extents ih =>
    have inner : 0 < volume extents := Nat.pos_of_lt_mul_left below
    rw [tuple, position, ih (Nat.mod_lt p inner), Nat.div_add_mod']

end Binning.Layout
