import Mathlib.Algebra.Group.Pi.Lemmas
import Mathlib.Data.Set.Card

/-! Reference counts.

Slots refer to objects, and every object has a count. `RefCounted slot ref` says that
the count of each object is the number of slots that refer to it. A slot that changes
takes one off the count of the object it referred to and adds one to that of the object
it refers to then (`RefCounted.update`). -/
namespace OS2021.Lib

variable {ι α : Type} {slot : ι → Option α} {ref ref' : α → Int} {i j : ι} {a : α} {o : Option α}

/-- The slots that refer to `a`. -/
def holders (slot : ι → Option α) (a : α) : Set ι := {i | slot i = some a}

structure RefCounted (slot : ι → Option α) (ref : α → Int) : Prop where
  finite : ∀ a, (holders slot a).Finite
  ref : ∀ a, ref a = (holders slot a).ncard

/-- An object that a slot refers to is counted. -/
theorem RefCounted.pos (h : RefCounted slot ref) (hi : slot i = some a) : 0 < ref a := by
  rw [h.ref]
  exact Int.natCast_pos.mpr ((Set.ncard_pos (h.finite a)).mpr ⟨i, hi⟩)

section Update
variable [DecidableEq ι] [DecidableEq α]

/-- What one slot adds to the counts. -/
def weight : Option α → α → Int
  | none => 0
  | some a => Pi.single a 1

theorem weight_apply (o : Option α) (a : α) : weight o a = if o = some a then 1 else 0 := by
  cases o with
  | none => rfl
  | some b =>
    rw [weight, Pi.single_apply]
    simp only [Option.some.injEq, eq_comm]

omit [DecidableEq α] in
theorem holders_update : holders (Function.update slot i o) a =
    {j | j = i ∧ o = some a ∨ j ≠ i ∧ slot j = some a} := by
  ext j
  by_cases hj : j = i
  · simp [holders, hj]
  · simp [holders, hj]

namespace RefCounted

/-- One slot changes. -/
theorem update (h : RefCounted slot ref) (href : ref' = ref + weight o - weight (slot i)) :
    RefCounted (Function.update slot i o) ref' := by
  have hcount : ∀ a, (holders (Function.update slot i o) a).Finite ∧
      ref' a = (holders (Function.update slot i o) a).ncard := by
    intro a
    have hfin := h.finite a
    have hold := h.ref a
    have href' : ref' a = ref a + weight o a - weight (slot i) a := congrFun href a
    rw [weight_apply, weight_apply] at href'
    by_cases ho : o = some a
    · -- the slot refers to `a` now
      have hset : holders (Function.update slot i o) a = insert i (holders slot a) := by
        rw [holders_update]
        ext j
        by_cases hj : j = i <;> simp [holders, hj, ho]
      rw [hset]
      refine ⟨hfin.insert i, ?_⟩
      by_cases hi : slot i = some a
      · rw [Set.insert_eq_of_mem (show i ∈ holders slot a from hi), href', if_pos ho, if_pos hi, hold]
        omega
      · rw [Set.ncard_insert_of_notMem (show i ∉ holders slot a from hi) hfin, href', if_pos ho, if_neg hi, hold]
        push_cast
        omega
    · -- it does not
      have hset : holders (Function.update slot i o) a = holders slot a \ {i} := by
        rw [holders_update]
        ext j
        by_cases hj : j = i <;> simp [holders, hj, ho]
      rw [hset]
      refine ⟨hfin.sdiff, ?_⟩
      by_cases hi : slot i = some a
      · have hone := Set.ncard_sdiff_singleton_add_one (show i ∈ holders slot a from hi) hfin
        rw [href', if_neg ho, if_pos hi, hold]
        omega
      · rw [Set.sdiff_singleton_eq_self (show i ∉ holders slot a from hi), href', if_neg ho, if_neg hi, hold]
        omega
  exact ⟨fun a => (hcount a).1, fun a => (hcount a).2⟩

/-- Two slots count for two. -/
theorem two_le (h : RefCounted slot ref) (hi : slot i = some a) (hj : slot j = some a) (hne : j ≠ i) : 2 ≤ ref a := by
  have hrest : RefCounted (Function.update slot i none) (ref - weight (slot i)) :=
    h.update (by rw [weight, add_zero])
  have hpos := hrest.pos (i := j) (a := a) (by rw [Function.update_of_ne hne, hj])
  rw [Pi.sub_apply, weight_apply, if_pos hi] at hpos
  omega

end RefCounted

end Update

end OS2021.Lib
