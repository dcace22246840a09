import Mathlib.Data.List.TakeWhile
import Mathlib.Tactic.Common

/-! Strings of C (`common/string.c`). A string is given by bytes, of which those up to the first
zero, or to the end of a field, count. -/
namespace OS2021.Common

/-- `strncmp`, on the bytes of two strings that end in zeros. -/
def strncmp (s1 s2 : List UInt8) : Nat → Int
  | 0 => 0
  | n + 1 =>
    let a := s1.getD 0 0
    let b := s2.getD 0 0
    if a ≠ b then (a.toNat : Int) - b.toNat
    else if a = 0 then 0
    else strncmp s1.tail s2.tail n

/-- `strncpy` pads with zeros. -/
def strncpy (src : List UInt8) (n : Nat) : List UInt8 :=
  let copied := (src.takeWhile (· ≠ 0)).take n
  copied ++ List.replicate (n - copied.length) 0

/-- A C string in a field of `n` bytes, which it may fill without a zero at its end. -/
def cString (n : Nat) (s : List UInt8) : List UInt8 := (s.take n).takeWhile (· ≠ 0)

theorem strncpy_length (src : List UInt8) (n : Nat) : (strncpy src n).length = n := by
  have hle : ((src.takeWhile (· ≠ 0)).take n).length ≤ n := List.length_take_le ..
  rw [strncpy, List.length_append, List.length_replicate, Nat.add_sub_cancel' hle]

theorem cString_succ (n : Nat) (s : List UInt8) :
    cString (n + 1) s = if s.getD 0 0 = 0 then [] else s.getD 0 0 :: cString n s.tail := by
  cases s with
  | nil => rfl
  | cons a s =>
    by_cases ha : a = 0
    · simp [cString, ha]
    · simp [cString, ha]

/-- `strncmp` compares the strings in the fields. -/
theorem strncmp_eq_zero {n : Nat} {a b : List UInt8} : strncmp a b n = 0 ↔ cString n a = cString n b := by
  induction n generalizing a b with
  | zero => simp [strncmp, cString]
  | succ n ih =>
    rw [strncmp, cString_succ, cString_succ]
    by_cases hab : a.getD 0 0 = b.getD 0 0
    · rw [if_neg (not_not.mpr hab), hab]
      by_cases hz : b.getD 0 0 = 0
      · rw [if_pos hz, if_pos hz, if_pos hz]
        simp
      · rw [if_neg hz, if_neg hz, if_neg hz, ih, List.cons.injEq]
        simp
    · have hne : ((a.getD 0 0).toNat : Int) - (b.getD 0 0).toNat ≠ 0 := by
        have htoNat : (a.getD 0 0).toNat ≠ (b.getD 0 0).toNat := fun h => hab (UInt8.toNat_inj.mp h)
        omega
      rw [if_pos hab]
      refine ⟨fun h => absurd h hne, fun h => absurd ?_ hab⟩
      split at h
      case isTrue ha =>
        split at h
        case isTrue hb => rw [ha, hb]
        case isFalse => cases h
      case isFalse =>
        split at h
        case isTrue => cases h
        case isFalse => exact (List.cons.inj h).1

theorem cString_strncpy (s : List UInt8) (n : Nat) : cString n (strncpy s n) = cString n s := by
  have hcopied : ∀ a ∈ (s.takeWhile (· ≠ 0)).take n, decide (a ≠ 0) = true := by
    intro a ha
    have hne := List.mem_takeWhile_imp (List.mem_of_mem_take ha)
    exact hne
  have hzeros : (List.replicate (n - ((s.takeWhile (· ≠ 0)).take n).length) (0 : UInt8)).takeWhile (· ≠ 0) = [] := by
    simp
  rw [cString, List.take_of_length_le (Nat.le_of_eq (strncpy_length s n)), strncpy,
    List.takeWhile_append_of_pos hcopied, hzeros, List.append_nil, List.take_takeWhile]
  rfl

end OS2021.Common
