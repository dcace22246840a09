import Mathlib.Data.List.Basic
import Mathlib.Logic.Function.Basic

/-! Finite maps kept in slots.

Slots `0` to `n - 1` are each free or hold a key with a value. As long as no key is
in two slots the slots are a finite map (`find`), in which a key's place is part of
its value: storing a new key in a free slot, or in one more at the end, changes what
is found for that key, and freeing a slot changes what is found for the key in it. -/
namespace OS2021.Lib
open Function

variable {K V : Type} {n i j : Nat} {slot slot' : Nat → Option (K × V)} {k : K} {v : V}

/-- No key is in two slots. -/
def Distinct (n : Nat) (slot : Nat → Option (K × V)) : Prop :=
  ∀ i < n, ∀ j < n, ∀ k v w, slot i = some (k, v) → slot j = some (k, w) → i = j

/-- The first slot that is free, or the end. -/
def firstFree (n : Nat) (slot : Nat → Option (K × V)) : Nat :=
  ((List.range n).find? fun j => (slot j).isNone).getD n

theorem firstFree_spec (n : Nat) (slot : Nat → Option (K × V)) : firstFree n slot ≤ n ∧
    (∀ j < firstFree n slot, (slot j).isSome) ∧ (firstFree n slot < n → slot (firstFree n slot) = none) := by
  unfold firstFree
  cases hfind : (List.range n).find? fun j => (slot j).isNone with
  | none =>
    rw [List.find?_eq_none] at hfind
    refine ⟨Nat.le_refl n, fun j hj => ?_, fun hlt => absurd hlt (Nat.lt_irrefl n)⟩
    simpa [Option.isSome_iff_ne_none] using hfind j (List.mem_range.mpr hj)
  | some j =>
    rw [List.find?_range_eq_some] at hfind
    obtain ⟨hfree, hmem, hbefore⟩ := hfind
    refine ⟨Nat.le_of_lt (List.mem_range.mp hmem), fun i hi => ?_, fun _ => by simpa using hfree⟩
    simpa [Option.isSome_iff_ne_none] using hbefore i hi

theorem Distinct.clear (h : Distinct n slot) : Distinct n (update slot j none) := by
  have hold : ∀ {i k v}, update slot j none i = some (k, v) → slot i = some (k, v) := by
    intro i k v hs
    by_cases hij : i = j
    · rw [hij, update_self] at hs
      cases hs
    · rwa [update_of_ne hij] at hs
  intro i hi i' hi' k v w hv hw
  exact h i hi i' hi' k v w (hold hv) (hold hw)

section Find
variable [DecidableEq K]

/-- What slot `j` says about a key: its value, and `j`. -/
def hit (slot : Nat → Option (K × V)) (k : K) (j : Nat) : Option (V × Nat) :=
  (slot j).bind fun e => if e.1 = k then some (e.2, j) else none

theorem hit_eq_some {r : V × Nat} : hit slot k j = some r ↔ r.2 = j ∧ slot j = some (k, r.1) := by
  obtain ⟨v, i⟩ := r
  cases hs : slot j with
  | none => simp [hit, hs]
  | some e =>
    obtain ⟨k', v'⟩ := e
    by_cases hk : k' = k
    · simp [hit, hs, hk, and_comm, eq_comm]
    · simp [hit, hs, hk]

/-- The value of a key, and the slot it is in. -/
def find (n : Nat) (slot : Nat → Option (K × V)) (k : K) : Option (V × Nat) :=
  (List.range n).findSome? (hit slot k)

theorem find_eq_none : find n slot k = none ↔ ∀ j < n, ∀ v, slot j ≠ some (k, v) := by
  rw [find, List.findSome?_eq_none_iff]
  constructor
  · intro h j hj v hs
    have hhit : hit slot k j = some (v, j) := hit_eq_some.mpr ⟨rfl, hs⟩
    rw [h j (List.mem_range.mpr hj)] at hhit
    cases hhit
  · intro h j hj
    cases hhit : hit slot k j with
    | none => rfl
    | some r => exact absurd (hit_eq_some.mp hhit).2 (h j (List.mem_range.mp hj) r.1)

theorem of_find_eq_some (h : find n slot k = some (v, i)) : i < n ∧ slot i = some (k, v) := by
  obtain ⟨j, hj, hhit⟩ := List.exists_of_findSome?_eq_some h
  obtain ⟨he, hs⟩ := hit_eq_some.mp hhit
  dsimp only at he hs
  subst he
  exact ⟨List.mem_range.mp hj, hs⟩

theorem Distinct.find_eq_some (h : Distinct n slot) : find n slot k = some (v, i) ↔ i < n ∧ slot i = some (k, v) := by
  constructor
  · exact of_find_eq_some
  · intro hi
    cases hfind : find n slot k with
    | none => exact absurd hi.2 (find_eq_none.mp hfind i hi.1 v)
    | some r =>
      obtain ⟨w, j⟩ := r
      obtain ⟨hj, hs⟩ := of_find_eq_some hfind
      obtain rfl := h i hi.1 j hj k v w hi.2 hs
      have hvw : (k, v) = (k, w) := Option.some.inj (hi.2.symm.trans hs)
      rw [(Prod.mk.inj hvw).2]

/-- The same slots hold the key. -/
theorem Distinct.find_ext {n' : Nat} (h : Distinct n slot) (h' : Distinct n' slot')
    (hs : ∀ i v, i < n' ∧ slot' i = some (k, v) ↔ i < n ∧ slot i = some (k, v)) :
    find n' slot' k = find n slot k := by
  apply Option.ext
  intro r
  obtain ⟨v, i⟩ := r
  rw [h'.find_eq_some, h.find_eq_some, hs]

/-! ### Storing a new key -/

section Store
variable (h : Distinct n slot) (hk : find n slot k = none) (hj : j ≤ n)
include h hk hj

theorem Distinct.store : Distinct (max n (j + 1)) (update slot j (some (k, v))) := by
  have hnew : ∀ i < max n (j + 1), i ≠ j → ∀ w, update slot j (some (k, v)) i ≠ some (k, w) := by
    intro i hi hne w
    rw [update_of_ne hne]
    exact find_eq_none.mp hk i (by omega) w
  intro i hi i' hi' k' u w hu hw
  by_cases hij : i = j
  · by_cases hij' : i' = j
    · rw [hij, hij']
    · rw [hij, update_self] at hu
      cases hu
      exact absurd hw (hnew i' hi' hij' w)
  · by_cases hij' : i' = j
    · rw [hij', update_self] at hw
      cases hw
      exact absurd hu (hnew i hi hij u)
    · rw [update_of_ne hij] at hu
      rw [update_of_ne hij'] at hw
      exact h i (by omega) i' (by omega) k' u w hu hw

theorem Distinct.find_store (hfree : j < n → slot j = none) :
    find (max n (j + 1)) (update slot j (some (k, v))) = update (find n slot) k (some (v, j)) := by
  funext k'
  by_cases hk' : k' = k
  · rw [hk', update_self, (h.store hk hj).find_eq_some, update_self]
    exact ⟨by omega, rfl⟩
  · rw [update_of_ne hk']
    refine h.find_ext (h.store hk hj) fun i w => ?_
    by_cases hi : i = j
    · rw [hi, update_self]
      constructor
      · intro hs
        exact absurd (Prod.mk.inj (Option.some.inj hs.2)).1.symm hk'
      · intro hs
        rw [hfree hs.1] at hs
        cases hs.2
    · rw [update_of_ne hi]
      exact and_congr_left fun _ => by omega

end Store

/-! ### Freeing a slot -/

theorem Distinct.find_clear (h : Distinct n slot) (k : K) : find n (update slot j none) k =
    if (find n slot k).any (fun r => r.2 = j) then none else find n slot k := by
  split
  case isTrue hany =>
    obtain ⟨⟨v, i⟩, hfind, hi⟩ := (Option.any_eq_true _ _).mp hany
    obtain rfl : i = j := of_decide_eq_true hi
    obtain ⟨hlt, hs⟩ := of_find_eq_some hfind
    rw [find_eq_none]
    intro i' hi' w hs'
    by_cases hij : i' = i
    · rw [hij, update_self] at hs'
      cases hs'
    · rw [update_of_ne hij] at hs'
      exact hij (h i' hi' i hlt k w v hs' hs)
  case isFalse hany =>
    refine h.find_ext h.clear fun i w => and_congr_right fun hi => ?_
    by_cases hij : i = j
    · rw [hij, update_self]
      refine ⟨nofun, fun hs => absurd ?_ hany⟩
      have hfind := h.find_eq_some.mpr ⟨hij ▸ hi, hs⟩
      simp [hfind]
    · rw [update_of_ne hij]

end Find

end OS2021.Lib
