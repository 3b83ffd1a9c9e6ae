/-! Readings of 64-bit words. Sizes and counts are natural numbers and bin
indices are integers; a function below names each place where only 64 bits of
them are kept.

What leaves a word wraps, as in a build without overflow checks. Only the offset
of a place is summed as in a build with them: `Loc.plus`, `Loc.minus` and
`Loc.resolve` stop with `Error.overflow`. A build with the checks would stop
elsewhere too, at an axis of `2 ^ 63` bins and at the slot of the last signed
word. -/
namespace Binning.Word64

def maxUnsigned : Nat := 0xFFFFFFFFFFFFFFFF

def minSigned : Int := -0x8000000000000000

def maxSigned : Int := 0x7FFFFFFFFFFFFFFF

def Signed (i : Int) : Prop := minSigned ≤ i ∧ i ≤ maxSigned

instance (i : Int) : Decidable (Signed i) := inferInstanceAs (Decidable (_ ∧ _))

/-- So many edges or cells, of eight bytes each, are within the 56 bits of addresses
that a program has. No memory holds more. -/
def InMemory (n : Nat) : Prop := 8 * n ≤ 0x100000000000000

instance (n : Nat) : Decidable (InMemory n) := inferInstanceAs (Decidable (_ ≤ _))

/-- The signed reading of a word: behind the largest signed word it counts up
from the least one. -/
def signed (n : Nat) : Int :=
  if n < 0x8000000000000000 then n else (n : Int).bmod 0x10000000000000000

/-- The word that an integer leaves in its last 64 bits. -/
def unsigned (i : Int) : Nat := (i % 0x10000000000000000).toNat

/-- The integer an addition leaves when only a signed word of it is kept. -/
def wrapSigned (i : Int) : Int := i.bmod 0x10000000000000000

def clampSigned (i : Int) : Int := max minSigned (min maxSigned i)

def clampUnsigned (i : Int) : Nat := min maxUnsigned i.toNat

/-- A counter that stops at the largest word. -/
def addSaturating (a b : Nat) : Nat := min maxUnsigned (a + b)

/-- A counter that starts again after the largest word. -/
def addWrapping (a b : Nat) : Nat := (a + b) % 0x10000000000000000

theorem inMemory_iff {n : Nat} : InMemory n ↔ n ≤ 0x20000000000000 := by
  unfold InMemory
  omega

theorem InMemory.mono {m n : Nat} (held : InMemory n) (le : m ≤ n) : InMemory m :=
  inMemory_iff.mpr (Nat.le_trans le (inMemory_iff.mp held))

theorem signed_of_lt {n : Nat} (h : n < 0x8000000000000000) : signed n = n := if_pos h

theorem signed_eq_bmod (n : Nat) : signed n = (n : Int).bmod 0x10000000000000000 := by
  unfold signed
  split
  · rw [Int.bmod_def]
    omega
  · rfl

theorem unsigned_of_nonneg {i : Int} (low : 0 ≤ i) (high : i < 0x10000000000000000) :
    unsigned i = i.toNat := by
  unfold unsigned
  rw [Int.emod_eq_of_lt low high]

theorem clampSigned_of_signed {i : Int} (h : Signed i) : clampSigned i = i := by
  unfold Signed at h
  unfold clampSigned
  omega

end Binning.Word64
