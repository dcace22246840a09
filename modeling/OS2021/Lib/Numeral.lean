import Mathlib.Data.Nat.Digits.Lemmas

/-! Positional numerals.

`numeral b n` is `n` written in base `b`, least significant digit first; zero is
written with one digit. Written out over an alphabet, most significant digit first,
a numeral is read back by `readDigits` as the number it stands for. -/
namespace OS2021.Lib

variable {α : Type} {b n : Nat}

/-- The digits of `n` in base `b`, at least one. -/
def numeral (b n : Nat) : List Nat := if n = 0 then [0] else b.digits n

/-- A numeral is made by dividing until nothing is left. -/
theorem numeral_eq (hb : 1 < b) (n : Nat) :
    numeral b n = n % b :: if n / b = 0 then [] else numeral b (n / b) := by
  by_cases hn : n = 0
  · simp [numeral, hn]
  · simp only [numeral, if_neg hn, Nat.digits_def' hb (Nat.pos_of_ne_zero hn)]
    split
    case isTrue hz => simp [hz]
    case isFalse hz => rfl

theorem numeral_ne_nil (b n : Nat) : numeral b n ≠ [] := by
  unfold numeral
  split
  case isTrue => simp
  case isFalse hn => exact Nat.digits_ne_nil_iff_ne_zero.mpr hn

theorem lt_of_mem_numeral {d : Nat} (hb : 1 < b) (hd : d ∈ numeral b n) : d < b := by
  unfold numeral at hd
  split at hd
  case isTrue =>
    rw [List.mem_singleton.mp hd]
    exact Nat.zero_lt_of_lt hb
  case isFalse => exact Nat.digits_lt_base hb hd

theorem numeral_length_le {k : Nat} (hb : 1 < b) (hk : 0 < k) (hn : n < b ^ k) : (numeral b n).length ≤ k := by
  unfold numeral
  split
  case isTrue => exact hk
  case isFalse => exact (Nat.digits_length_le_iff hb n).mpr hn

/-- Only zero has a leading zero. -/
theorem numeral_of_getLast (h : (numeral b n).getLast? = some 0) : numeral b n = [0] := by
  unfold numeral at h ⊢
  split at h
  case isTrue hn => rw [if_pos hn]
  case isFalse hn =>
    rw [List.getLast?_eq_some_getLast (Nat.digits_ne_nil_iff_ne_zero.mpr hn)] at h
    exact absurd (Option.some.inj h) (Nat.getLast_digit_ne_zero b hn)

theorem ofDigits_numeral (b n : Nat) : Nat.ofDigits b (numeral b n) = n := by
  unfold numeral
  split
  case isTrue hn => simp [hn]
  case isFalse => exact Nat.ofDigits_digits b n

/-! ### Reading back -/

/-- The number that the characters `cs` stand for after those of `n`, where `value` says which digit a
character is. -/
def readDigits (value : α → Option Nat) (b : Nat) : Nat → List α → Option Nat
  | n, [] => some n
  | n, c :: cs =>
    match value c with
    | none => none
    | some d => if d < b then readDigits value b (b * n + d) cs else none

theorem readDigits_append (value : α → Option Nat) (cs cs' : List α) :
    readDigits value b n (cs ++ cs') = (readDigits value b n cs).bind (readDigits value b · cs') := by
  induction cs generalizing n with
  | nil => rfl
  | cons c cs ih =>
    simp only [List.cons_append, readDigits]
    cases value c with
    | none => rfl
    | some d =>
      by_cases hd : d < b
      · simp [hd, ih]
      · simp [hd]

section Alphabet
variable {value : α → Option Nat} {digit : Nat → α} (hdigit : ∀ d < b, value (digit d) = some d)
include hdigit

theorem readDigits_reverse {ds : List Nat} (hds : ∀ d ∈ ds, d < b) :
    readDigits value b n (ds.reverse.map digit) = some (Nat.ofDigits b ds + b ^ ds.length * n) := by
  induction ds with
  | nil => simp [readDigits]
  | cons d ds ih =>
    have hd : d < b := hds d (by simp)
    rw [List.reverse_cons, List.map_append, readDigits_append, ih fun e he => hds e (by simp [he])]
    simp only [Option.bind_some, List.map_cons, List.map_nil, readDigits, hdigit d hd, if_pos hd,
      Nat.ofDigits_cons, List.length_cons]
    congr 1
    ring

/-- **A numeral reads back** as its number. -/
theorem readDigits_numeral (hb : 1 < b) (n : Nat) :
    readDigits value b 0 ((numeral b n).reverse.map digit) = some n := by
  rw [readDigits_reverse hdigit fun d => lt_of_mem_numeral hb, ofDigits_numeral]
  simp

end Alphabet

end OS2021.Lib
