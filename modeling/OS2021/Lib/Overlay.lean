import Mathlib.Data.List.GetD
import Mathlib.Data.List.Pairwise

/-! Lists laid over a function.

A memory is a function from addresses. `overlay f a l` is `f` with the elements of `l` from
address `a` on, and `overlays` lays pieces one over the other. Pieces that are apart can all
be read back, whatever their order; an address in none of them has what it had. -/
namespace OS2021.Lib

variable {α : Type} {f : Nat → α} {a j x : Nat} {l l' : List α} {ps : List (Nat × List α)} {p : Nat × List α}

def overlay (f : Nat → α) (a : Nat) (l : List α) (x : Nat) : α := if a ≤ x then l.getD (x - a) (f x) else f x

theorem overlay_inside (h : j < l.length) : overlay f a l (a + j) = l[j] := by
  rw [overlay, if_pos (Nat.le_add_right a j), Nat.add_sub_cancel_left, List.getD_eq_getElem _ _ h]

theorem overlay_outside (h : ¬ (a ≤ x ∧ x < a + l.length)) : overlay f a l x = f x := by
  rw [overlay]
  split
  case isTrue hle => exact List.getD_eq_default _ _ (by omega)
  case isFalse => rfl

@[simp] theorem overlay_nil : overlay f a [] = f := by
  funext x
  exact overlay_outside fun h => absurd h.2 (Nat.not_lt.mpr h.1)

/-- A second list behind the first. -/
theorem overlay_overlay : overlay (overlay f a l) (a + l.length) l' = overlay f a (l ++ l') := by
  funext x
  by_cases hbehind : a + l.length ≤ x
  · have hfirst : overlay f a l x = f x := overlay_outside fun h => by omega
    have hsub : x - (a + l.length) = x - a - l.length := by omega
    rw [overlay, if_pos hbehind, hfirst, overlay, if_pos (by omega), hsub, List.getD_append_right _ _ _ _ (by omega)]
  · rw [overlay, if_neg hbehind, overlay, overlay]
    by_cases hle : a ≤ x
    · rw [if_pos hle, if_pos hle, List.getD_append _ _ _ _ (by omega)]
    · rw [if_neg hle, if_neg hle]

/-! ### Pieces -/

/-- The addresses of a piece. -/
def Covers (p : Nat × List α) (x : Nat) : Prop := p.1 ≤ x ∧ x < p.1 + p.2.length

def overlays (f : Nat → α) : List (Nat × List α) → Nat → α
  | [] => f
  | p :: ps => overlays (overlay f p.1 p.2) ps

theorem overlays_outside (h : ∀ p ∈ ps, ¬ Covers p x) : overlays f ps x = f x := by
  induction ps generalizing f with
  | nil => rfl
  | cons p ps ih =>
    rw [overlays, ih fun q hq => h q (List.mem_cons_of_mem p hq)]
    exact overlay_outside (h p List.mem_cons_self)

/-- Later pieces do not touch a piece that is apart from them. -/
theorem overlays_inside (hapart : ps.Pairwise fun p q => ∀ x, Covers p x → ¬ Covers q x) (hp : p ∈ ps)
    (hj : j < p.2.length) : overlays f ps (p.1 + j) = p.2[j] := by
  induction ps generalizing f with
  | nil => cases hp
  | cons q ps ih =>
    rw [List.pairwise_cons] at hapart
    rw [overlays]
    rcases List.mem_cons.mp hp with rfl | hmem
    · have hcovers : Covers p (p.1 + j) := ⟨Nat.le_add_right .., Nat.add_lt_add_left hj _⟩
      rw [overlays_outside fun q hq => hapart.1 q hq _ hcovers]
      exact overlay_inside hj
    · exact ih hapart.2 hmem

end OS2021.Lib
