import Mathlib.Tactic.Ring

/-!
# Little-endian words in a byte block

A block is a function from its byte positions to bytes. A program that casts a block to an array of
32-bit integers reads and writes four bytes at a time: `wordAt` reads word `i` and `setWord` stores
one. The two laws `wordAt_setWord_self` and `wordAt_setWord_ne` are all a client needs: a stored word
is read back modulo `2 ^ 32`, and the other words of the block stay as they were.
-/

namespace Xv6Lab.Lib.Words

variable {n : Nat}

/-- The byte at position `k`, as a number; positions outside the block read as zero. -/
def byteAt (d : Fin n → UInt8) (k : Nat) : Nat :=
  if h : k < n then (d ⟨k, h⟩).toNat else 0

/-- The 32-bit word `i` of a block, least significant byte first. -/
def wordAt (d : Fin n → UInt8) (i : Nat) : Nat :=
  byteAt d (4 * i) + 256 * byteAt d (4 * i + 1) + 65536 * byteAt d (4 * i + 2) + 16777216 * byteAt d (4 * i + 3)

/-- Store the low 32 bits of `v` as word `i`. -/
def setWord (d : Fin n → UInt8) (i v : Nat) : Fin n → UInt8 := fun k =>
  if k.val / 4 = i then UInt8.ofNat (v / 256 ^ (k.val % 4)) else d k

/-- A block of zero bytes holds zero words. -/
@[simp] theorem wordAt_zero (i : Nat) : wordAt (fun _ : Fin n => (0 : UInt8)) i = 0 := by
  have h : ∀ k, byteAt (fun _ : Fin n => (0 : UInt8)) k = 0 := by
    intro k
    unfold byteAt
    split <;> rfl
  simp [wordAt, h]

theorem byteAt_setWord_self (d : Fin n → UInt8) (i v j : Nat) (hj : j < 4) (hi : 4 * i + j < n) :
    byteAt (setWord d i v) (4 * i + j) = v / 256 ^ j % 256 := by
  have hdiv : (4 * i + j) / 4 = i := by omega
  have hmod : (4 * i + j) % 4 = j := by omega
  simp only [byteAt, setWord, hi, dite_true, hdiv, hmod, if_true]
  simp [UInt8.toNat_ofNat']

theorem byteAt_setWord_ne (d : Fin n → UInt8) (i v k : Nat) (hk : k / 4 ≠ i) :
    byteAt (setWord d i v) k = byteAt d k := by
  by_cases h : k < n
  · simp [byteAt, setWord, h, hk]
  · simp [byteAt, h]

/-- A stored word is read back modulo `2 ^ 32`. -/
theorem wordAt_setWord_self (d : Fin n → UInt8) (i v : Nat) (hi : 4 * i + 3 < n) :
    wordAt (setWord d i v) i = v % 2 ^ 32 := by
  have h0 := byteAt_setWord_self d i v 0 (by omega) (by omega)
  have h1 := byteAt_setWord_self d i v 1 (by omega) (by omega)
  have h2 := byteAt_setWord_self d i v 2 (by omega) (by omega)
  have h3 := byteAt_setWord_self d i v 3 (by omega) hi
  simp only [Nat.add_zero] at h0
  rw [wordAt, h0, h1, h2, h3]
  omega

/-- Storing a word leaves the other words alone. -/
theorem wordAt_setWord_ne (d : Fin n → UInt8) {i j : Nat} (v : Nat) (hij : i ≠ j) :
    wordAt (setWord d i v) j = wordAt d j := by
  rw [wordAt, wordAt, byteAt_setWord_ne d i v (4 * j) (by omega),
    byteAt_setWord_ne d i v (4 * j + 1) (by omega), byteAt_setWord_ne d i v (4 * j + 2) (by omega),
    byteAt_setWord_ne d i v (4 * j + 3) (by omega)]

end Xv6Lab.Lib.Words
