import Mathlib.Data.List.Basic
import Mathlib.Data.Nat.ModEq
import Mathlib.Logic.Function.Basic

/-! A ring buffer that holds the end of a stream.

The cell of position `k` of the stream is `k % size`. `Holds buf lo l` says that the
cells hold the stream `l` from position `lo` on; with at most `size` positions from
there to the end, no two of them share a cell. The positions are kept in fields of
64 bits that wrap. -/
namespace OS2021.Lib

variable {α : Type} {size : Nat} [NeZero size] {buf : Fin size → α} {lo lo' : Nat} {l l' : List α}

def Holds (buf : Fin size → α) (lo : Nat) (l : List α) : Prop :=
  ∀ k, lo ≤ k → ∀ h : k < l.length, buf (Fin.ofNat size k) = l[k]

/-- Positions less than `size` apart have cells of their own. -/
theorem cell_ne {i k : Nat} (hik : i < k) (hk : k < i + size) : Fin.ofNat size i ≠ Fin.ofNat size k := by
  intro he
  have hmod : i % size = k % size := congrArg Fin.val he
  have hdvd : size ∣ k - i := (Nat.modEq_iff_dvd' hik.le).mp hmod
  exact absurd (Nat.le_of_dvd (by omega) hdvd) (by omega)

theorem holds_nil : Holds buf lo ([] : List α) := fun _ _ h => absurd h (Nat.not_lt_zero _)

/-- What has been read may be forgotten. -/
theorem Holds.advance (h : Holds buf lo l) (hle : lo ≤ lo') : Holds buf lo' l := fun k hk => h k (hle.trans hk)

/-- The end of the stream may be taken back. -/
theorem Holds.of_prefix (h : Holds buf lo l) (hl : l' <+: l) : Holds buf lo l' := fun k hk hlt => by
  rw [h k hk (hlt.trans_le hl.length_le), hl.getElem hlt]

/-- One more element goes into the next cell while there is one. -/
theorem Holds.push (h : Holds buf lo l) (hroom : l.length < lo + size) (x : α) :
    Holds (Function.update buf (Fin.ofNat size l.length) x) lo (l ++ [x]) := fun k hk hlt => by
  rw [List.length_append, List.length_singleton] at hlt
  rcases Nat.lt_succ_iff_lt_or_eq.mp hlt with hlt | rfl
  · have hne : Fin.ofNat size k ≠ Fin.ofNat size l.length := cell_ne hlt (by omega)
    rw [Function.update_of_ne hne, List.getElem_append_left hlt]
    exact h k hk hlt
  · rw [Function.update_self, List.getElem_concat_length rfl]

/-! ### Counters that wrap -/

/-- Counters less than `2 ^ 64` apart are told apart by their fields. -/
theorem ofNat_eq_iff {a b : Nat} (hab : a ≤ b) (hb : b < a + 2 ^ 64) :
    UInt64.ofNat a = UInt64.ofNat b ↔ a = b := by
  refine ⟨fun he => ?_, fun he => he ▸ rfl⟩
  have hmod : a % 2 ^ 64 = b % 2 ^ 64 := by simpa using congrArg UInt64.toNat he
  have hdvd : 2 ^ 64 ∣ b - a := (Nat.modEq_iff_dvd' hab).mp hmod
  by_contra hne
  exact absurd (Nat.le_of_dvd (by omega) hdvd) (by omega)

/-- The distance of two counters, as the fields give it. -/
theorem toNat_sub_ofNat {a b : Nat} (hab : a ≤ b) (hb : b < a + 2 ^ 64) :
    (UInt64.ofNat b - UInt64.ofNat a).toNat = b - a := by
  rw [← UInt64.ofNat_sub hab, UInt64.toNat_ofNat', Nat.mod_eq_of_lt (by omega)]

theorem ofNat_sub_one {a : Nat} (ha : 0 < a) : UInt64.ofNat a - 1 = UInt64.ofNat (a - 1) :=
  (UInt64.ofNat_sub ha).symm

theorem ofNat_add_one (a : Nat) : UInt64.ofNat a + 1 = UInt64.ofNat (a + 1) :=
  (UInt64.ofNat_add a 1).symm

/-- The cell of a counter is the cell of its field, if the cells divide the wrap. -/
theorem cell_toNat (hsize : size ∣ 2 ^ 64) (k : Nat) :
    Fin.ofNat size (UInt64.ofNat k).toNat = Fin.ofNat size k := by
  apply Fin.ext
  show (UInt64.ofNat k).toNat % size = k % size
  rw [UInt64.toNat_ofNat']
  exact Nat.mod_mod_of_dvd k hsize

end OS2021.Lib
