import Mathlib.Data.List.Nodup

/-! Singly linked lists through their nodes.

`Chain next nil a l` says that the nodes from `a` on, each with the next one behind it, are
those of `l`, and that the last one is followed by `nil`. A chain is determined by where it
starts, so a chain that ends goes through no node twice. -/
namespace OS2021.Lib

variable {α : Type} {next next' : α → α} {nil a x : α} {l l' : List α}

def Chain (next : α → α) (nil : α) : α → List α → Prop
  | a, [] => a = nil
  | a, x :: l => a = x ∧ a ≠ nil ∧ Chain next nil (next a) l

namespace Chain

theorem eq_nil_iff (h : Chain next nil a l) : l = [] ↔ a = nil := by
  cases l with
  | nil => exact iff_of_true rfl h
  | cons x l => exact iff_of_false (List.cons_ne_nil x l) h.2.1

/-- Only the links of the nodes count. -/
theorem congr (h : Chain next nil a l) (hnext : ∀ x ∈ l, next' x = next x) : Chain next' nil a l := by
  induction l generalizing a with
  | nil => exact h
  | cons x l ih =>
    obtain ⟨rfl, hne, hrest⟩ := h
    refine ⟨rfl, hne, ?_⟩
    rw [hnext a List.mem_cons_self]
    exact ih hrest fun y hy => hnext y (List.mem_cons_of_mem a hy)

/-- There is one chain from each node. -/
theorem unique (h : Chain next nil a l) (h' : Chain next nil a l') : l = l' := by
  induction l generalizing a l' with
  | nil => exact (h'.eq_nil_iff.mpr h).symm
  | cons x l ih =>
    cases l' with
    | nil => exact absurd h' h.2.1
    | cons x' l' => rw [← h.1, ← h'.1, ih h.2.2 h'.2.2]

theorem of_append (h : Chain next nil a (l ++ x :: l')) : Chain next nil x (x :: l') := by
  induction l generalizing a with
  | nil => exact ⟨rfl, h.1 ▸ h.2.1, h.1 ▸ h.2.2⟩
  | cons y l ih => exact ih h.2.2

/-- No node comes twice: the chain would go on from it in two ways. -/
theorem nodup (h : Chain next nil a l) : l.Nodup := by
  induction l generalizing a with
  | nil => exact List.nodup_nil
  | cons x l ih =>
    refine List.nodup_cons.mpr ⟨fun hmem => ?_, ih h.2.2⟩
    obtain ⟨l1, l2, rfl⟩ := List.append_of_mem hmem
    have hagain : Chain next nil x (x :: l2) := h.2.2.of_append
    have hlen := congrArg List.length (h.unique (h.1 ▸ hagain))
    rw [List.length_cons, List.length_cons, List.length_append, List.length_cons] at hlen
    omega

end Chain

end OS2021.Lib
