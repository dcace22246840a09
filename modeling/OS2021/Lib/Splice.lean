import Mathlib.Data.List.Basic

/-! Overwriting part of a list.

`splice l off src` puts `src` into `l` at `off`, past its end if it is long enough.
A list given by its elements, `elements n f = [f 0, …, f (n - 1)]`, is spliced by
changing the function. -/
namespace OS2021.Lib

variable {α : Type}

def splice (l : List α) (off : Nat) (src : List α) : List α :=
  l.take off ++ src ++ l.drop (off + src.length)

def elements (n : Nat) (f : Nat → α) : List α := (List.range n).map f

@[simp] theorem elements_length (n : Nat) (f : Nat → α) : (elements n f).length = n := by
  rw [elements, List.length_map, List.length_range]

theorem elements_congr {n : Nat} {f g : Nat → α} (h : ∀ j < n, f j = g j) : elements n f = elements n g :=
  List.map_congr_left fun j hj => h j (List.mem_range.mp hj)

theorem elements_getElem? {n : Nat} {f : Nat → α} {j : Nat} (h : j < n) : (elements n f)[j]? = some (f j) := by
  rw [elements, List.getElem?_map, List.getElem?_range h, Option.map_some]

theorem elements_getD (l : List α) (d : α) : elements l.length (fun j => l.getD j d) = l := by
  apply List.ext_getElem?
  intro j
  by_cases hj : j < l.length
  · rw [elements_getElem? hj, List.getD_eq_getElem?_getD, List.getElem?_eq_getElem hj, Option.getD_some]
  · rw [List.getElem?_eq_none (Nat.not_lt.mp hj), List.getElem?_eq_none]
    rw [elements_length]
    exact Nat.not_lt.mp hj

theorem elements_append (n k : Nat) (f : Nat → α) :
    elements (n + k) f = elements n f ++ elements k fun j => f (n + j) := by
  rw [elements, List.range_add, List.map_append, List.map_map]
  rfl

theorem elements_take (n k : Nat) (f : Nat → α) : (elements n f).take k = elements (min k n) f := by
  rw [elements, ← List.map_take, List.take_range]
  rfl

theorem elements_drop (n k : Nat) (f : Nat → α) : (elements n f).drop k = elements (n - k) fun j => f (k + j) := by
  by_cases hle : k ≤ n
  · conv_lhs => rw [← Nat.add_sub_cancel' hle, elements_append]
    rw [List.drop_left' (elements_length ..)]
  · have hz : n - k = 0 := by omega
    rw [hz, List.drop_eq_nil_of_le]
    · rfl
    · rw [elements_length]
      omega

/-- The elements of a spliced list: those of `src` in its range, the old ones elsewhere. -/
theorem splice_elements {n off : Nat} {f : Nat → α} {src : List α} (d : α) (h : off ≤ n) :
    splice (elements n f) off src = elements (max n (off + src.length)) fun j =>
      if off ≤ j ∧ j < off + src.length then src.getD (j - off) d else f j := by
  have hmax : max n (off + src.length) = off + src.length + (n - (off + src.length)) := by omega
  rw [splice, elements_take, Nat.min_eq_left h, elements_drop, hmax, elements_append, elements_append]
  congr 1
  · congr 1
    · refine elements_congr fun j hj => ?_
      rw [if_neg (by omega)]
    · conv_lhs => rw [← elements_getD src d]
      refine elements_congr fun j hj => ?_
      rw [if_pos (by omega), Nat.add_sub_cancel_left]
  · refine elements_congr fun j hj => ?_
    rw [if_neg (by omega)]

/-- A second splice behind the first. -/
theorem splice_splice {l a b : List α} {off : Nat} (h : off ≤ l.length) :
    splice (splice l off a) (off + a.length) b = splice l off (a ++ b) := by
  have hlen : (l.take off ++ a).length = off + a.length := by rw [List.length_append, List.length_take_of_le h]
  have htake : (splice l off a).take (off + a.length) = l.take off ++ a := by
    rw [splice]
    exact List.take_left' hlen
  have hdrop : (splice l off a).drop (off + a.length + b.length) = l.drop (off + (a ++ b).length) := by
    rw [splice, ← List.drop_drop, List.drop_left' hlen, List.drop_drop, List.length_append, Nat.add_assoc]
  rw [splice, htake, hdrop, splice, List.append_assoc (l.take off)]

end OS2021.Lib
