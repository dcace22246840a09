import Mathlib.Logic.Function.Basic

/-! Threads and the locks they take.

Each thread is at a place in its program: `place : T → P`. A step of a thread updates its
place. A lock names the thread that has it, if any; `Guards inside owner place` says that
this is the thread that is at one of the places `inside` the sections under the lock. -/
namespace OS2021.Lib
open Function

variable {T P : Type} {place : T → P} {inside : P → Bool} {owner : Option T} {t u : T} {a b : P}

def Guards (inside : P → Bool) (owner : Option T) (place : T → P) : Prop :=
  ∀ t, inside (place t) = true ↔ owner = some t

/-- Two threads are not inside at once. -/
theorem Guards.exclusive (h : Guards inside owner place) (ht : inside (place t) = true)
    (hu : inside (place u) = true) :
    t = u := Option.some.inj (((h t).mp ht).symm.trans ((h u).mp hu))

/-- No thread is inside while the lock is free. -/
theorem Guards.outside (h : Guards inside none place) (t : T) : inside (place t) = false := by
  cases ht : inside (place t) with
  | false => rfl
  | true => cases (h t).mp ht

/-! ### Moves -/

variable [DecidableEq T]

/-- Where the threads are after one of them has moved. -/
theorem update_cases (h : update place t a u = b) : u = t ∧ a = b ∨ u ≠ t ∧ place u = b := by
  by_cases hu : u = t
  · rw [hu, update_self] at h
    exact Or.inl ⟨hu, h⟩
  · rw [update_of_ne hu] at h
    exact Or.inr ⟨hu, h⟩

theorem Guards.acquire (h : Guards inside none place) (ha : inside a = true) :
    Guards inside (some t) (update place t a) := by
  intro u
  by_cases hu : u = t
  · rw [hu, update_self]
    exact iff_of_true ha rfl
  · rw [update_of_ne hu, h.outside u]
    exact iff_of_false nofun fun he => hu (Option.some.inj he).symm

theorem Guards.release (h : Guards inside owner place) (ht : inside (place t) = true) (ha : inside a = false) :
    Guards inside none (update place t a) := by
  intro u
  by_cases hu : u = t
  · rw [hu, update_self, ha]
    exact iff_of_false nofun nofun
  · rw [update_of_ne hu]
    exact iff_of_false (fun hin => hu (h.exclusive hin ht)) nofun

/-- A move that stays on the same side. -/
theorem Guards.move (h : Guards inside owner place) (ha : inside a = inside (place t)) :
    Guards inside owner (update place t a) := by
  intro u
  by_cases hu : u = t
  · rw [hu, update_self, ha]
    exact h t
  · rw [update_of_ne hu]
    exact h u

/-! ### Several locks -/

section Several
variable {ι : Type} [DecidableEq ι] {sections : ι → P → Bool} {owners : ι → Option T} {i : ι}

theorem guards_acquire (h : ∀ j, Guards (sections j) (owners j) place) (hfree : owners i = none)
    (hi : sections i a = true) (hj : ∀ j ≠ i, sections j a = sections j (place t)) :
    ∀ j, Guards (sections j) (update owners i (some t) j) (update place t a) := by
  intro j
  by_cases hji : j = i
  · rw [hji, update_self]
    have hg := h i
    rw [hfree] at hg
    exact hg.acquire hi
  · rw [update_of_ne hji]
    exact (h j).move (hj j hji)

theorem guards_release (h : ∀ j, Guards (sections j) (owners j) place) (ht : sections i (place t) = true)
    (hi : sections i a = false) (hj : ∀ j ≠ i, sections j a = sections j (place t)) :
    ∀ j, Guards (sections j) (update owners i none j) (update place t a) := by
  intro j
  by_cases hji : j = i
  · rw [hji, update_self]
    exact (h i).release ht hi
  · rw [update_of_ne hji]
    exact (h j).move (hj j hji)

end Several

end OS2021.Lib
