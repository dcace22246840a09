import Mathlib.Data.List.Induction
import Mathlib.Data.Option.Basic
import Mathlib.Logic.Basic

/-! Tries kept in a store.

`child t i` is the node that entry `i` of node `t` points to, if any. `follow` goes down a
path from a node; `Branching r d` says that no two paths of at most `d` steps from `r`
meet. Then an entry has one path: a change at the last level moves no node, and a new node
below an empty entry is one new node. -/
namespace OS2021.Lib

variable {τ ι : Type} {child child' : τ → ι → Option τ} {r t q x : τ} {i : ι} {π σ : List ι} {d : Nat}

/-- The node at the end of a path. -/
def follow (child : τ → ι → Option τ) (t : τ) (π : List ι) : Option τ := π.foldlM child t

@[simp] theorem follow_nil (child : τ → ι → Option τ) (t : τ) : follow child t [] = some t := rfl

theorem follow_snoc (child : τ → ι → Option τ) (t : τ) (π : List ι) (i : ι) :
    follow child t (π ++ [i]) = (follow child t π).bind (child · i) := by
  rw [follow, follow, List.foldlM_append]
  refine Option.bind_congr fun x _ => ?_
  rw [List.foldlM_cons]
  exact Option.bind_fun_some _

/-- A node below another one. -/
theorem follow_step (ht : follow child r π = some t) (i : ι) : follow child r (π ++ [i]) = child t i := by
  rw [follow_snoc, ht, Option.bind_some]

/-- A path leads where it did if the entries on it are as they were. -/
theorem follow_congr (h : ∀ ρ i x, ρ ++ [i] <+: π → follow child r ρ = some x → child' x i = child x i) :
    follow child' r π = follow child r π := by
  induction π using List.reverseRecOn with
  | nil => rfl
  | append_singleton π i ih =>
    rw [follow_snoc, follow_snoc, ih fun ρ j x hρ => h ρ j x (hρ.trans (List.prefix_append π [i]))]
    exact Option.bind_congr fun x hx => h π i x List.prefix_rfl hx

/-- No two paths of at most `d` steps lead to one node. -/
def Branching (child : τ → ι → Option τ) (r : τ) (d : Nat) : Prop :=
  ∀ π ρ x, π.length ≤ d → ρ.length ≤ d → follow child r π = some x → follow child r ρ = some x → π = ρ

namespace Branching

section
variable (h : Branching child r d) (ht : follow child r σ = some t) (hσ : σ.length = d)
  (hsame : ∀ x j, x ≠ t → child' x j = child x j)
include h ht hσ hsame

/-- Entries of the last level change. -/
theorem follow_leaf (hπ : π.length ≤ d) : follow child' r π = follow child r π := by
  refine follow_congr fun ρ i x hρ hx => hsame x i fun he => ?_
  have hlen := hρ.length_le
  rw [List.length_append, List.length_singleton] at hlen
  have heq := h ρ σ x (by omega) (Nat.le_of_eq hσ) hx (he ▸ ht)
  rw [heq] at hlen
  omega

theorem leaf : Branching child' r d := by
  intro π ρ x hπ hρ hx hx'
  rw [h.follow_leaf ht hσ hsame hπ] at hx
  rw [h.follow_leaf ht hσ hsame hρ] at hx'
  exact h π ρ x hπ hρ hx hx'

end

variable [DecidableEq ι]

section
variable (h : Branching child r d) (ht : follow child r σ = some t) (hσ : σ.length < d) (hempty : child t i = none)
include h ht hσ hempty

section
variable (hnew : child' t i = some q) (hsame : ∀ x j, x ≠ t ∨ j ≠ i → child' x j = child x j)
  (hq : ∀ j, child' q j = none)
include hnew hsame hq

/-- An empty entry is made to point to a node without entries. -/
theorem follow_link (hπ : π.length ≤ d) : follow child' r π = if π = σ ++ [i] then some q else follow child r π := by
  induction π using List.reverseRecOn with
  | nil => rw [if_neg (by simp), follow_nil, follow_nil]
  | append_singleton π j ih =>
    rw [List.length_append, List.length_singleton] at hπ
    have ih := ih (by omega)
    rw [follow_snoc, ih]
    by_cases hbelow : π = σ ++ [i]
    -- below the new node there is nothing yet, as there was nothing below the entry
    · have hne : σ ++ [i] ++ [j] ≠ σ ++ [i] := by simp
      rw [if_pos hbelow, Option.bind_some, hq j, hbelow, if_neg hne, follow_snoc, follow_step ht, hempty,
        Option.bind_none]
    · rw [if_neg hbelow, follow_snoc]
      cases hx : follow child r π with
      | none =>
        have hne : π ++ [j] ≠ σ ++ [i] := fun he => by
          rw [(List.append_inj' he rfl).1, ht] at hx
          cases hx
        rw [if_neg hne, Option.bind_none, Option.bind_none]
      | some x =>
        rw [Option.bind_some, Option.bind_some]
        by_cases hentry : x = t ∧ j = i
        · obtain ⟨rfl, rfl⟩ := hentry
          rw [if_pos (by rw [h π σ x (by omega) (Nat.le_of_lt hσ) hx ht]), hnew]
        · have hne : π ++ [j] ≠ σ ++ [i] := fun he => by
            obtain ⟨rfl, hj⟩ := List.append_inj' he rfl
            rw [ht] at hx
            exact hentry ⟨(Option.some.inj hx).symm, (List.singleton_inj.mp hj)⟩
          rw [if_neg hne, hsame x j (not_and_or.mp hentry)]

theorem link (hfresh : ∀ π, π.length ≤ d → follow child r π ≠ some q) : Branching child' r d := by
  have hfollow : ∀ π, π.length ≤ d → follow child' r π = if π = σ ++ [i] then some q else follow child r π :=
    fun π hπ => h.follow_link ht hσ hempty hnew hsame hq hπ
  intro π ρ x hπ hρ hx hx'
  rw [hfollow π hπ] at hx
  rw [hfollow ρ hρ] at hx'
  split at hx
  case isTrue hπ' =>
    split at hx'
    case isTrue hρ' => exact hπ'.trans hρ'.symm
    case isFalse => exact absurd (hx'.trans hx.symm) (hfresh ρ hρ)
  case isFalse =>
    split at hx'
    case isTrue => exact absurd (hx.trans hx'.symm) (hfresh π hπ)
    case isFalse => exact h π ρ x hπ hρ hx hx'

end

end

end Branching

end OS2021.Lib
