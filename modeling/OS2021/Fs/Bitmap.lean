import Mathlib.Data.Nat.Bitwise
import OS2021.Fs.Log

/-! Bits in a bitmap block: what setting and clearing one does to the others. -/
namespace OS2021.Fs
open Lib

variable {d : BlockData} {i j k : Nat}

theorem bytes_setByte (v : UInt8) (hk : k < blockSize) :
    bytes (setByte d k v) j = if j = k then v else bytes d j := by
  by_cases hj : j < blockSize
  · rw [bytes_of_lt hj, bytes_of_lt hj, setByte]
  · have hne : j ≠ k := by omega
    rw [if_neg hne, bytes, bytes, dif_neg hj, dif_neg hj]

theorem bitMask_toNat (i : Nat) : (bitMask i).toNat = 2 ^ (i % 8) := by
  have h : ∀ k : Fin 8, ((1 : UInt8) <<< UInt8.ofNat k).toNat = 2 ^ (k : Nat) := by decide
  exact h ⟨i % 8, Nat.mod_lt i (by decide)⟩

/-- Masking tests one bit. -/
theorem and_bitMask (v : UInt8) (i : Nat) : (v &&& bitMask i != 0) = v.toNat.testBit (i % 8) := by
  rw [Bool.eq_iff_iff, bne_iff_ne, ne_eq, ← UInt8.toNat_inj, UInt8.toNat_and, bitMask_toNat,
    Nat.and_two_pow, UInt8.toNat_zero]
  cases hbit : v.toNat.testBit (i % 8) <;> simp

theorem not_bitMask_testBit (i j : Nat) : (~~~ bitMask i).toNat.testBit (j % 8) = decide (j % 8 ≠ i % 8) := by
  have h : ∀ k l : Fin 8, (~~~ ((1 : UInt8) <<< UInt8.ofNat k)).toNat.testBit l = decide ((l : Nat) ≠ k) := by
    decide
  exact h ⟨i % 8, Nat.mod_lt i (by decide)⟩ ⟨j % 8, Nat.mod_lt j (by decide)⟩

theorem bitIsSet_eq (d : BlockData) (i : Nat) : bitIsSet d i = (bytes d (i / 8)).toNat.testBit (i % 8) :=
  and_bitMask _ i

theorem bitIsSet_setBit (hi : i < bitPerBlock) :
    bitIsSet (setBit d i) j = (decide (j = i) || bitIsSet d j) := by
  have hk : i / 8 < blockSize := Nat.div_lt_of_lt_mul hi
  rw [bitIsSet_eq, bitIsSet_eq, setBit, bytes_setByte _ hk]
  by_cases hb : j / 8 = i / 8
  · have hiff : j = i ↔ i % 8 = j % 8 := by omega
    rw [if_pos hb, UInt8.toNat_or, Nat.testBit_or, bitMask_toNat, Nat.testBit_two_pow, hb, Bool.or_comm]
    simp only [hiff]
  · have hne : j ≠ i := fun he => hb (by rw [he])
    rw [if_neg hb, decide_eq_false hne, Bool.false_or]

theorem bitIsSet_clearBit (hi : i < bitPerBlock) :
    bitIsSet (clearBit d i) j = (decide (j ≠ i) && bitIsSet d j) := by
  have hk : i / 8 < blockSize := Nat.div_lt_of_lt_mul hi
  rw [bitIsSet_eq, bitIsSet_eq, clearBit, bytes_setByte _ hk]
  by_cases hb : j / 8 = i / 8
  · have hiff : j ≠ i ↔ j % 8 ≠ i % 8 := by omega
    rw [if_pos hb, UInt8.toNat_and, Nat.testBit_and, not_bitMask_testBit, hb, Bool.and_comm]
    simp only [hiff]
  · have hne : j ≠ i := fun he => hb (by rw [he])
    rw [if_neg hb, decide_eq_true hne, Bool.true_and]

end OS2021.Fs
