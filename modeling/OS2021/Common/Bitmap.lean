import Mathlib.Data.List.Range
import Mathlib.Logic.Function.Basic

/-! The bitmaps of `common/bitmap.h`: consecutive bits in cells of 64. -/
namespace OS2021.Common
open Function

abbrev bitmapBitsPerCell : Nat := 64

/-- The cells of a bitmap. -/
abbrev Bitmap := Nat → BitVec 64

/-- `BIT(i)` -/
def bit (i : Nat) : BitVec 64 := 1#64 <<< i

def initBitmap : Bitmap := fun _ => 0

def bitmapGet (b : Bitmap) (index : Nat) : Bool :=
  (b (index / bitmapBitsPerCell) >>> (index % bitmapBitsPerCell)) &&& 1#64 != 0

def bitmapSet (b : Bitmap) (index : Nat) : Bitmap :=
  let idx := index / bitmapBitsPerCell
  update b idx (b idx ||| bit (index % bitmapBitsPerCell))

def bitmapClear (b : Bitmap) (index : Nat) : Bitmap :=
  let idx := index / bitmapBitsPerCell
  update b idx (b idx &&& ~~~ bit (index % bitmapBitsPerCell))

variable {b : Bitmap} {i j n : Nat}

/-- One bit of one cell. -/
theorem bitmapGet_eq (b : Bitmap) (i : Nat) : bitmapGet b i = (b (i / 64)).getLsbD (i % 64) := by
  rw [bitmapGet, BitVec.and_one_eq_setWidth_ofBool_getLsbD, BitVec.getLsbD_ushiftRight, Nat.add_zero]
  cases (b (i / 64)).getLsbD (i % 64) <;> rfl

theorem getLsbD_bit (i j : Nat) : (bit (i % 64)).getLsbD (j % 64) = decide (j % 64 = i % 64) := by
  have hi : i % 64 < 64 := Nat.mod_lt _ (by decide)
  rw [bit, ← BitVec.twoPow_eq, BitVec.getLsbD_twoPow, decide_eq_true hi, Bool.true_and]
  exact decide_eq_decide.mpr eq_comm

/-- A bit is found by its cell and its place there. -/
theorem index_eq_iff (hcell : j / 64 = i / 64) : j % 64 = i % 64 ↔ j = i := by
  omega

theorem bitmapGet_init (i : Nat) : bitmapGet initBitmap i = false := by
  rw [bitmapGet_eq]
  exact BitVec.getLsbD_zero

theorem bitmapGet_set (b : Bitmap) (i j : Nat) : bitmapGet (bitmapSet b i) j = (decide (j = i) || bitmapGet b j) := by
  rw [bitmapGet_eq, bitmapGet_eq, bitmapSet]
  by_cases hcell : j / 64 = i / 64
  · rw [hcell, update_self, BitVec.getLsbD_or, getLsbD_bit, Bool.or_comm]
    simp only [index_eq_iff hcell]
  · have hne : j ≠ i := fun he => hcell (he ▸ rfl)
    rw [update_of_ne hcell, decide_eq_false hne, Bool.false_or]

theorem bitmapGet_clear (b : Bitmap) (i j : Nat) :
    bitmapGet (bitmapClear b i) j = (!decide (j = i) && bitmapGet b j) := by
  rw [bitmapGet_eq, bitmapGet_eq, bitmapClear]
  by_cases hcell : j / 64 = i / 64
  · have hj : j % 64 < 64 := Nat.mod_lt _ (by decide)
    rw [hcell, update_self, BitVec.getLsbD_and, BitVec.getLsbD_not, getLsbD_bit, decide_eq_true hj,
      Bool.true_and, Bool.and_comm]
    simp only [index_eq_iff hcell]
  · have hne : j ≠ i := fun he => hcell (he ▸ rfl)
    rw [update_of_ne hcell, decide_eq_false hne, Bool.not_false, Bool.true_and]

/-- The number of bits set among the first `n`. -/
def numSet (b : Bitmap) (n : Nat) : Nat := (List.range n).countP (bitmapGet b)

theorem numSet_succ (b : Bitmap) (n : Nat) : numSet b (n + 1) = numSet b n + if bitmapGet b n then 1 else 0 := by
  rw [numSet, List.range_succ, List.countP_append, List.countP_singleton]
  rfl

theorem numSet_congr {b' : Bitmap} (h : ∀ i < n, bitmapGet b' i = bitmapGet b i) : numSet b' n = numSet b n :=
  List.countP_congr fun i hi => by rw [h i (List.mem_range.mp hi)]

theorem numSet_init (n : Nat) : numSet initBitmap n = 0 := by
  rw [numSet, List.countP_eq_zero]
  intro i _
  rw [bitmapGet_init]
  exact Bool.false_ne_true

/-- Two bitmaps that differ in one bit below `n`. -/
theorem numSet_change (b' : Bitmap) (hi : i < n) (h : ∀ j, j ≠ i → bitmapGet b' j = bitmapGet b j) :
    numSet b' n + (if bitmapGet b i then 1 else 0) = numSet b n + if bitmapGet b' i then 1 else 0 := by
  induction n with
  | zero => exact absurd hi (Nat.not_lt_zero i)
  | succ n ih =>
    rw [numSet_succ, numSet_succ]
    by_cases hin : i = n
    · subst hin
      rw [numSet_congr fun j hj => h j (Nat.ne_of_lt hj)]
      omega
    · rw [h n (Ne.symm hin)]
      have := ih (by omega)
      omega

theorem numSet_set (hi : i < n) (h : bitmapGet b i = false) : numSet (bitmapSet b i) n = numSet b n + 1 := by
  have hchange := numSet_change (b := b) (bitmapSet b i) hi fun j hj => by
    rw [bitmapGet_set, decide_eq_false hj, Bool.false_or]
  rw [bitmapGet_set, decide_eq_true rfl, h] at hchange
  simpa using hchange

theorem numSet_clear (hi : i < n) (h : bitmapGet b i = true) : numSet (bitmapClear b i) n + 1 = numSet b n := by
  have hchange := numSet_change (b := b) (bitmapClear b i) hi fun j hj => by
    rw [bitmapGet_clear, decide_eq_false hj, Bool.not_false, Bool.true_and]
  rw [bitmapGet_clear, decide_eq_true rfl, h] at hchange
  simpa using hchange

theorem numSet_le (b : Bitmap) (n : Nat) : numSet b n ≤ n := by
  have hle := List.countP_le_length (p := bitmapGet b) (l := List.range n)
  rwa [List.length_range] at hle

/-- A bit is clear exactly when not all are set. -/
theorem numSet_lt : numSet b n < n ↔ ∃ i < n, bitmapGet b i = false := by
  have hall : numSet b n = n ↔ ∀ i < n, bitmapGet b i = true := by
    have hlength := List.countP_eq_length (p := bitmapGet b) (l := List.range n)
    rw [List.length_range] at hlength
    simpa only [numSet, List.mem_range] using hlength
  rw [Nat.lt_iff_le_and_ne, and_iff_right (numSet_le b n), Ne, hall]
  simp

end OS2021.Common
