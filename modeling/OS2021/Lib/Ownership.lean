import Mathlib.Data.Set.Insert
import Mathlib.Logic.Function.Basic

/-! Places that own addresses.

`addr k` is the address that place `k` owns, 0 if it owns none. An allocator keeps
the set of addresses in use. `Owned lo hi addr used` says that the allocator can be
relied on: no address in `[lo, hi)` has two owners, and what is owned is in use, as
is everything below `lo`. `Exact` adds that nothing else is in use. Giving a free
address to an empty place and taking one from its owner keep both. -/
namespace OS2021.Lib
open Function

variable {κ : Type} {lo hi b : Nat} {addr addr' : κ → Nat} {used used' : Set Nat} {k k' : κ}

structure Owned (lo hi : Nat) (addr : κ → Nat) (used : Set Nat) : Prop where
  pos : 0 < lo
  le : lo ≤ hi
  distinct : ∀ k k', addr k ≠ 0 → addr k = addr k' → k = k'
  range : ∀ k, addr k ≠ 0 → lo ≤ addr k ∧ addr k < hi
  below : ∀ b < lo, b ∈ used
  mem_used : ∀ k, addr k ≠ 0 → addr k ∈ used

/-- What is in use has an owner. -/
def Exact (lo hi : Nat) (addr : κ → Nat) (used : Set Nat) : Prop :=
  ∀ b ∈ used, lo ≤ b → b < hi → ∃ k, addr k = b

namespace Owned

section
variable (h : Owned lo hi addr used)
include h

/-- Some places may lose what they own, and the set in use may change where nothing is owned. -/
theorem restrict (ha : ∀ k, addr' k ≠ 0 → addr' k = addr k) (hbelow : ∀ b < lo, b ∈ used')
    (hmem : ∀ k, addr' k ≠ 0 → addr' k ∈ used') : Owned lo hi addr' used' := by
  refine ⟨h.pos, h.le, fun k k' hk he => ?distinct, fun k hk => ?range, hbelow, hmem⟩
  case distinct =>
    have hk' := ha k' (he ▸ hk)
    have hka := ha k hk
    rw [hka, hk'] at he
    exact h.distinct k k' (hka ▸ hk) he
  case range =>
    have hka := ha k hk
    rw [hka] at hk ⊢
    exact h.range k hk

theorem congr (ha : ∀ k, addr' k = addr k) (hu : ∀ b < hi, b ∈ used' ↔ b ∈ used) : Owned lo hi addr' used' := by
  refine h.restrict (fun k _ => ha k) (fun b hb => ?_) fun k hk => ?_
  · exact (hu b (lt_of_lt_of_le hb h.le)).mpr (h.below b hb)
  · rw [ha k] at hk ⊢
    exact (hu _ (h.range k hk).2).mpr (h.mem_used k hk)

theorem ne_of_ne (hk : addr k ≠ 0) (hne : k ≠ k') : addr k ≠ addr k' :=
  fun he => hne (h.distinct k k' hk he)

/-- A free address is one the allocator may give out, and nobody owns it. -/
theorem free_ge (hb : b ∉ used) : lo ≤ b := by
  by_contra hlt
  exact hb (h.below b (not_le.mp hlt))

theorem free_ne (hb : b ∉ used) (hk : addr k ≠ 0) : addr k ≠ b :=
  fun he => hb (he ▸ h.mem_used k hk)

/-- Some of the places. -/
theorem comp {ι : Type} {f : ι → κ} (hf : Function.Injective f) : Owned lo hi (fun i => addr (f i)) used :=
  ⟨h.pos, h.le, fun _ _ hi he => hf (h.distinct _ _ hi he), fun i => h.range (f i), h.below,
  fun i => h.mem_used (f i)⟩

/-- What is in use may be more than what is owned. -/
theorem grow (hu : used ⊆ used') : Owned lo hi addr used' :=
  h.restrict (fun _ _ => rfl) (fun b hb => hu (h.below b hb)) fun k hk => hu (h.mem_used k hk)

end

end Owned

theorem Exact.congr (h : Exact lo hi addr used) (ha : ∀ k, addr' k = addr k)
    (hu : ∀ b < hi, b ∈ used' ↔ b ∈ used) : Exact lo hi addr' used' := by
  obtain rfl : addr' = addr := funext ha
  exact fun b hb hl hh => h b ((hu b hh).mp hb) hl hh

/-! ### Several addresses are taken from their owners -/

section Drop
variable {P : κ → Prop} [DecidablePred P]

theorem Owned.drop (h : Owned lo hi addr used) (ha : ∀ k, addr' k = if P k then 0 else addr k) :
    Owned lo hi addr' (used \ {b | b ≠ 0 ∧ ∃ k, P k ∧ addr k = b}) := by
  have hkeep : ∀ k, addr' k ≠ 0 → ¬ P k ∧ addr' k = addr k := by
    intro k hk
    rw [ha k] at hk ⊢
    split at hk
    case isTrue => exact absurd rfl hk
    case isFalse hP => exact ⟨hP, if_neg hP⟩
  refine h.restrict (fun k hk => (hkeep k hk).2) (fun b hb => ⟨h.below b hb, fun hgone => ?_⟩) fun k hk => ?_
  · obtain ⟨hb0, k, -, rfl⟩ := hgone
    have := (h.range k hb0).1
    omega
  · obtain ⟨hP, hsame⟩ := hkeep k hk
    rw [hsame] at hk ⊢
    refine ⟨h.mem_used k hk, fun hgone => ?_⟩
    obtain ⟨-, k', hP', he⟩ := hgone
    exact hP (h.distinct k k' hk he.symm ▸ hP')

theorem Exact.drop (h : Exact lo hi addr used) (ha : ∀ k, addr' k = if P k then 0 else addr k) :
    Exact lo hi addr' (used \ {b | b ≠ 0 ∧ ∃ k, P k ∧ addr k = b}) := by
  intro b hb hl hh
  obtain ⟨k, rfl⟩ := h b hb.1 hl hh
  refine ⟨k, ?_⟩
  rw [ha k]
  split
  case isTrue hP =>
    by_contra hne
    exact hb.2 ⟨Ne.symm hne, k, hP, rfl⟩
  case isFalse => rfl

end Drop

variable [DecidableEq κ]

/-! ### An address is given to an empty place -/

/-- The address is in use, but nobody owns it. -/
theorem Owned.adopt (h : Owned lo hi addr used) (hb : b ∈ used) (hge : lo ≤ b) (hlt : b < hi)
    (hown : ∀ k, addr k ≠ b) : Owned lo hi (update addr k b) used := by
  refine ⟨h.pos, h.le, ?distinct, ?range, h.below, ?mem_used⟩
  case distinct =>
    intro x y hx he
    by_cases hxk : x = k
    · by_cases hyk : y = k
      · rw [hxk, hyk]
      · rw [hxk, update_self, update_of_ne hyk] at he
        exact absurd he.symm (hown y)
    · rw [update_of_ne hxk] at hx he
      by_cases hyk : y = k
      · rw [hyk, update_self] at he
        exact absurd he (hown x)
      · rw [update_of_ne hyk] at he
        exact h.distinct x y hx he
  case range =>
    intro x hx
    by_cases hxk : x = k
    · rw [hxk, update_self]
      exact ⟨hge, hlt⟩
    · rw [update_of_ne hxk] at hx ⊢
      exact h.range x hx
  case mem_used =>
    intro x hx
    by_cases hxk : x = k
    · rw [hxk, update_self]
      exact hb
    · rw [update_of_ne hxk] at hx ⊢
      exact h.mem_used x hx

theorem Owned.assign (h : Owned lo hi addr used) (hb : b ∉ used) (hlt : b < hi) :
    Owned lo hi (update addr k b) (insert b used) := by
  have hge := h.free_ge hb
  have hpos := h.pos
  refine (h.grow (Set.subset_insert b used)).adopt (Set.mem_insert b used) hge hlt fun x he => ?_
  exact h.free_ne hb (he ▸ by omega) he

theorem Exact.assign (h : Exact lo hi addr used) (hpos : 0 < lo) (hk : addr k = 0) :
    Exact lo hi (update addr k b) (insert b used) := by
  intro x hx hl hh
  rcases Set.mem_insert_iff.mp hx with rfl | hx
  · exact ⟨k, update_self ..⟩
  · obtain ⟨y, rfl⟩ := h x hx hl hh
    have hyk : y ≠ k := fun he => by
      rw [he, hk] at hl
      omega
    exact ⟨y, update_of_ne hyk ..⟩

end OS2021.Lib
