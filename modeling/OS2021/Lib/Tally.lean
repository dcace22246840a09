import Mathlib.Algebra.BigOperators.Group.List.Basic

/-! Totals over a list.

Where each member of a list without repetitions has a weight, a change of one weight
changes the total by as much (`total_change`), whatever happens to weights outside
the list. -/
namespace OS2021.Lib

variable {α M : Type} [AddCommMonoid M] {xs : List α} {f g : α → M} {a : α}

def total (f : α → M) (xs : List α) : M := (xs.map f).sum

@[simp] theorem total_cons : total f (a :: xs) = f a + total f xs := List.sum_cons

theorem total_congr (h : ∀ b ∈ xs, g b = f b) : total g xs = total f xs := by
  unfold total
  rw [List.map_congr_left h]

/-- Only what weighs something counts. -/
theorem total_zero (h : ∀ b ∈ xs, f b = 0) : total f xs = 0 := by
  induction xs with
  | nil => rfl
  | cons a xs ih => simp [h a, ih fun b hb => h b (List.mem_cons_of_mem a hb)]

section Change
variable [DecidableEq α]

theorem total_erase (f : α → M) (ha : a ∈ xs) : f a + total f (xs.erase a) = total f xs := List.sum_map_erase f ha

theorem total_change (hnd : xs.Nodup) (ha : a ∈ xs) (h : ∀ b ∈ xs, b ≠ a → g b = f b) :
    total g xs + f a = total f xs + g a := by
  have hrest : total g (xs.erase a) = total f (xs.erase a) := by
    apply total_congr
    intro b hb
    exact h b (List.mem_of_mem_erase hb) fun he => hnd.not_mem_erase (he ▸ hb)
  calc total g xs + f a = g a + total g (xs.erase a) + f a := by rw [total_erase g ha]
    _ = f a + total f (xs.erase a) + g a := by rw [hrest, add_right_comm, add_comm (g a) (f a), add_right_comm]
    _ = total f xs + g a := by rw [total_erase f ha]

/-- The only member that can weigh something. -/
theorem total_eq_single (hnd : xs.Nodup) (ha : a ∈ xs) (h : ∀ b ∈ xs, b ≠ a → f b = 0) : total f xs = f a := by
  have hrest : total f (xs.erase a) = 0 := by
    apply total_zero
    intro b hb
    exact h b (List.mem_of_mem_erase hb) fun he => hnd.not_mem_erase (he ▸ hb)
  rw [← total_erase f ha, hrest, add_zero]

end Change

end OS2021.Lib
