import Mathlib.Data.List.Basic

/-! Shrinking a recency list from its old end.

`sweep limit removable l` walks `l` from the back and drops the removable
elements it meets for as long as at least `limit` elements are left. What stays
is a sublist in the old order; every element that is not removable stays; and a
removable element stays exactly when enough removable ones lie behind it
(`mem_sweep`). -/
namespace OS2021.Lib

variable {α : Type}

/-- The walk, on the list read from the back; `size` counts the elements left. -/
def sweepBack (limit : Nat) (removable : α → Bool) : Nat → List α → List α
  | _, [] => []
  | size, x :: rest =>
    if limit ≤ size then
      if removable x then sweepBack limit removable (size - 1) rest
      else x :: sweepBack limit removable size rest
    else x :: rest

def sweep (limit : Nat) (removable : α → Bool) (l : List α) : List α :=
  (sweepBack limit removable l.length l.reverse).reverse

variable {limit : Nat} {removable : α → Bool}

theorem sweepBack_of_lt {size : Nat} {l : List α} (h : size < limit) :
    sweepBack limit removable size l = l := by
  cases l with
  | nil => rfl
  | cons x rest => rw [sweepBack, if_neg (Nat.not_le.mpr h)]

theorem sweepBack_sublist (size : Nat) (l : List α) :
    (sweepBack limit removable size l).Sublist l := by
  induction l generalizing size with
  | nil => exact .slnil
  | cons x rest ih =>
    rw [sweepBack]
    split
    · split
      · exact (ih _).cons x
      · exact (ih _).cons_cons x
    · exact List.Sublist.refl _

/-- Whether an element is kept, from what lies behind it. -/
theorem mem_sweepBack (hl : 0 < limit) {size : Nat} {behind before : List α} {x : α} (hb : x ∉ behind)
    (hf : x ∉ before) :
    x ∈ sweepBack limit removable size (behind ++ x :: before) ↔
      removable x = false ∨ size < limit + (behind.filter removable).length := by
  induction behind generalizing size with
  | nil =>
    have hnot : ∀ n, x ∉ sweepBack limit removable n before :=
      fun n h => hf ((sweepBack_sublist n before).subset h)
    simp only [List.nil_append, sweepBack, List.filter_nil, List.length_nil, Nat.add_zero]
    split
    case isTrue h =>
      cases hr : removable x
      · simp
      · simp only [if_true, hnot, false_iff, not_or, Nat.not_lt]
        exact ⟨by simp, h⟩
    case isFalse h =>
      simp only [List.mem_cons, true_or, true_iff]
      exact Or.inr (Nat.not_le.mp h)
  | cons y rest ih =>
    have hxy : x ≠ y := fun h => hb (h ▸ List.mem_cons_self ..)
    have hrest : x ∉ rest := fun h => hb (List.mem_cons_of_mem y h)
    rw [List.cons_append, sweepBack]
    split
    case isTrue h =>
      cases hr : removable y
      · simp only [Bool.false_eq_true, if_false, List.mem_cons, hxy, false_or, ih hrest,
          List.filter_cons, hr]
      · simp only [if_true, ih hrest, List.filter_cons, hr, List.length_cons]
        exact or_congr_right (by omega)
    case isFalse h =>
      have hin : x ∈ y :: (rest ++ x :: before) := by simp
      simp only [hin, true_iff]
      exact Or.inr (by omega)

/-! ### The list from the front -/

theorem sweep_sublist (l : List α) : (sweep limit removable l).Sublist l := by
  have h : (sweepBack limit removable l.length l.reverse).Sublist l.reverse := sweepBack_sublist ..
  rw [sweep, ← List.reverse_reverse l]
  simpa using h.reverse

/-- An element of the list stays exactly when it is not removable or enough
removable elements lie behind it. -/
theorem mem_sweep (hl : 0 < limit) {before behind : List α} {x : α} (hf : x ∉ before) (hb : x ∉ behind) :
    x ∈ sweep limit removable (before ++ x :: behind) ↔
      removable x = false ∨
        (before ++ x :: behind).length < limit + (behind.filter removable).length := by
  have hrev : (before ++ x :: behind).reverse = behind.reverse ++ x :: before.reverse := by simp
  rw [sweep, List.mem_reverse, hrev, mem_sweepBack hl (by simpa using hb) (by simpa using hf),
    List.filter_reverse, List.length_reverse]

/-- What is not removable is kept. -/
theorem mem_sweep_of_kept (hl : 0 < limit) {l : List α} {x : α} (h : x ∈ l) (hr : removable x = false)
    (hn : l.Nodup) : x ∈ sweep limit removable l := by
  obtain ⟨before, behind, rfl⟩ := List.append_of_mem h
  have hsplit := List.nodup_append.mp hn
  have hb : x ∉ behind := (List.nodup_cons.mp hsplit.2.1).1
  have hf : x ∉ before := fun hx => hsplit.2.2 x hx x (List.mem_cons_self ..) rfl
  exact (mem_sweep hl hf hb).mpr (Or.inl hr)

/-! ### How much is left -/

theorem sweepBack_small (size : Nat) (l : List α) (hsize : l.length ≤ size) :
    (sweepBack limit removable size l).length + (size - l.length) < limit ∨
      ∀ x ∈ sweepBack limit removable size l, removable x = false := by
  induction l generalizing size with
  | nil => exact Or.inr fun x hx => absurd hx (List.not_mem_nil)
  | cons x rest ih =>
    rw [List.length_cons] at hsize
    rw [sweepBack]
    split
    case isTrue h =>
      cases hr : removable x
      · rcases ih size (by omega) with hlt | hall
        · left
          simp only [Bool.false_eq_true, if_false, List.length_cons]
          omega
        · right
          intro y hy
          simp only [Bool.false_eq_true, if_false, List.mem_cons] at hy
          rcases hy with rfl | hy
          · exact hr
          · exact hall y hy
      · simp only [if_true, List.length_cons]
        rcases ih (size - 1) (by omega) with hlt | hall
        · exact Or.inl (by omega)
        · exact Or.inr hall
    case isFalse h =>
      left
      rw [List.length_cons]
      omega

/-- Either fewer than `limit` elements are left or nothing removable is. -/
theorem sweep_small (l : List α) :
    (sweep limit removable l).length < limit ∨ ∀ x ∈ sweep limit removable l, removable x = false := by
  have h := @sweepBack_small α limit removable l.length l.reverse (by simp)
  simp only [List.length_reverse, Nat.sub_self, Nat.add_zero] at h
  simpa only [sweep, List.length_reverse, List.mem_reverse] using h

end OS2021.Lib
