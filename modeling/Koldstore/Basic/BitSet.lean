import Mathlib

/-!
# Bit sets in byte strings

The number `i` is bit `i % 8` of byte `i / 8`.
-/

namespace Koldstore.BitSet

open List

/-- Whether bit `n` is set. -/
def getBit (bytes : List (BitVec 8)) (n : ℕ) : Bool := (bytes.getD (n / 8) 0).getLsbD (n % 8)

/-- Sets bit `n`. -/
def setBit (bytes : List (BitVec 8)) (n : ℕ) : List (BitVec 8) :=
  bytes.modify (n / 8) fun byte ↦ byte ||| BitVec.twoPow 8 (n % 8)

/-- The set of some bits in `size` bytes. -/
def ofBits (size : ℕ) (bits : List ℕ) : List (BitVec 8) := bits.foldl setBit (List.replicate size 0)

variable {bytes : List (BitVec 8)} {m n size : ℕ} {bits bits' : List ℕ}

@[simp] theorem length_setBit : (setBit bytes n).length = bytes.length := by simp [setBit]

theorem length_foldl_setBit : (bits.foldl setBit bytes).length = bytes.length := by
  induction bits generalizing bytes with
  | nil => rfl
  | cons bit bits ih => rw [foldl_cons, ih, length_setBit]

@[simp] theorem length_ofBits : (ofBits size bits).length = size := by
  rw [ofBits, length_foldl_setBit, length_replicate]

theorem getBit_setBit (hn : n < 8 * bytes.length) :
    getBit (setBit bytes n) m = (getBit bytes m || decide (m = n)) := by
  have hy : n / 8 < bytes.length := by omega
  simp only [getBit, setBit, getD_eq_getElem?_getD, getElem?_modify]
  by_cases hsm : n / 8 = m / 8
  · have hb : m % 8 = n % 8 ↔ m = n := by omega
    rw [← hsm, getElem?_eq_getElem hy]
    simp [hb, Nat.mod_lt]
  · have hne : m ≠ n := fun h ↦ hsm (by rw [h])
    simp [hsm, hne]

theorem getBit_foldl_setBit (hi : ∀ bit ∈ bits, bit < 8 * bytes.length) :
    getBit (bits.foldl setBit bytes) m = (getBit bytes m || decide (m ∈ bits)) := by
  induction bits generalizing bytes with
  | nil => simp
  | cons bit bits ih =>
    have hre : ∀ b ∈ bits, b < 8 * (setBit bytes bit).length := by
      intro b hb
      rw [length_setBit]
      exact hi b (mem_cons_of_mem _ hb)
    rw [foldl_cons, ih hre, getBit_setBit (hi bit mem_cons_self)]
    simp [Bool.or_assoc]

theorem getBit_replicate_zero : getBit (List.replicate size 0) m = false := by
  rw [getBit, getD_eq_getElem?_getD, getElem?_replicate]
  split
  · exact BitVec.getLsbD_zero
  · exact BitVec.getLsbD_zero

theorem getBit_ofBits (hb : ∀ bit ∈ bits, bit < 8 * size) :
    getBit (ofBits size bits) m = decide (m ∈ bits) := by
  rw [ofBits, getBit_foldl_setBit (by simpa using hb), getBit_replicate_zero, Bool.false_or]

end Koldstore.BitSet
