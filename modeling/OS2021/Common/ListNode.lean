import OS2021.Lib.Ring

/-! The intrusive circular lists of `common/list.c`.

A `ListNode *` is a node of some type `P`, or `none` for `NULL`; the fields of all
nodes are one `Links`. -/
namespace OS2021.Common
open Lib

variable {P : Type} [DecidableEq P]

def initListNode (L : Links P) (node : P) : Links P := L.alone node

def mergeList (L : Links P) : Option P → Option P → Option P × Links P
  | none, node2 => (node2, L)
  | node1, none => (node1, L)
  | some node1, some node2 => (some node1, L.join node1 node2)

/-- The node before the one that is taken out, and `NULL` if there is none. -/
def detachFromList (L : Links P) (node : P) : Option P × Links P :=
  (if L.prev node = node then none else some (L.prev node), L.unlink node)

variable {L : Links P} {p q : P} {l1 l2 : List P}

/-- A node with a neighbour is taken out of its list, and the neighbour is returned. -/
theorem detachFromList_eq (h : Ring L (l1 ++ q :: p :: l2)) : detachFromList L p = (some q, L.unlink p) := by
  have hq : L.prev p = q := h.adjacent.2
  have hne : q ≠ p := by
    have hnd := (List.nodup_append.mp h.nodup).2.1
    exact fun he => (List.nodup_cons.mp hnd).1 (he ▸ List.mem_cons_self ..)
  rw [detachFromList, hq, if_neg hne]

/-! ### A heap of lists -/

section Heap
variable {rings : Set (List P)} {a b x : P} {m1 m2 : List P}

/-- The fields of some nodes are as they were. -/
def Kept (L L' : Links P) (l : List P) : Prop := ∀ y ∈ l, L'.next y = L.next y ∧ L'.prev y = L.prev y

/-- The node before comes back, `NULL` if the node was alone. -/
theorem detachFromList_fst (h : Ring L (l1 ++ x :: l2)) :
    (detachFromList L x).1 = (l2 ++ l1).getLast? := by
  have hout : x ∉ l2 ++ l1 := by
    have hrot : (x :: (l2 ++ l1)).Nodup := h.rotate.nodup
    exact (List.nodup_cons.mp hrot).1
  rw [detachFromList, h.prev_eq]
  cases hlast : (l2 ++ l1).getLast? with
  | none => simp
  | some z =>
    have hz : z ≠ x := fun he => hout (he ▸ List.mem_of_mem_getLast? hlast)
    simp [hz]

/-- A third list is not written to. -/
theorem mergeList_kept (h : Rings L rings) (ha : l1 ++ a :: l2 ∈ rings) (hb : m1 ++ b :: m2 ∈ rings)
    {l : List P} (hl : l ∈ rings) (hla : l ≠ l1 ++ a :: l2) (hlb : l ≠ m1 ++ b :: m2) :
    Kept L (mergeList L (some a) (some b)).2 l := by
  intro y hy
  have hya := h.apart l hl _ ha hla y hy
  have hyb := h.apart l hl _ hb hlb y hy
  exact (h.ring _ ha).join_frame (h.ring _ hb) (by simp) (by simp) hya hyb

section
variable (h : Rings L rings) (hx : l1 ++ x :: l2 ∈ rings)
include h hx

theorem detachFromList_kept {l : List P} (hl : l ∈ rings) (hlx : l ≠ l1 ++ x :: l2) :
    Kept L (detachFromList L x).2 l := by
  intro y hy
  exact (h.ring _ hx).unlink_frame (by simp) (h.apart l hl _ hx hlx y hy)

/-- What a list is made of when `x` has been detached: the rest of its own list, and the others. -/
def without (rings : Set (List P)) (l1 l2 : List P) (x : P) : Set (List P) :=
  {l1 ++ l2} ∪ rings \ {l1 ++ x :: l2}

omit [DecidableEq P] in
theorem not_mem_without {l : List P} (hl : l ∈ without rings l1 l2 x) : x ∉ l := by
  rcases hl with rfl | ⟨hl, hne⟩
  · have hnd : (x :: (l1 ++ l2)).Nodup := List.nodup_middle.mp (h.ring _ hx).nodup
    exact (List.nodup_cons.mp hnd).1
  · exact fun hxl => h.apart l hl _ hx hne x hxl (by simp)

/-- The lists after `x` has been detached. -/
theorem detachFromList_rings : Rings (detachFromList L x).2 ({[x]} ∪ without rings l1 l2 x) := by
  have hun := h.unlink hx
  rwa [← Set.singleton_union, Set.union_assoc] at hun

/-- A node is taken out of its list and put behind another one. -/
theorem merge_detached {k : P} (hk : m1 ++ k :: m2 ∈ without rings l1 l2 x) :
    let L' := (mergeList (detachFromList L x).2 (some k) (some x)).2
    Ring L' (m1 ++ k :: x :: m2) ∧ ∀ l ∈ without rings l1 l2 x, l ≠ m1 ++ k :: m2 → Ring L' l := by
  intro L'
  have hrings := detachFromList_rings h hx
  have hkx : k ≠ x := fun he => not_mem_without h hx hk (he ▸ by simp)
  have hne : m1 ++ k :: m2 ≠ [] ++ x :: [] := by
    intro he
    have hmem : k ∈ m1 ++ k :: m2 := by simp
    rw [he] at hmem
    exact hkx (List.mem_singleton.mp hmem)
  have hjoin : Rings L' ({k :: x :: ([] ++ [] ++ (m2 ++ m1))} ∪ _) := hrings.join (.inr hk) (.inl rfl) hne
  refine ⟨?_, fun l hl hlk => ?_⟩
  · have hring : Ring L' ((k :: x :: m2) ++ m1) := hjoin.ring _ (.inl (by simp))
    exact hring.rotate
  · have hlx : l ≠ [x] := fun he => not_mem_without h hx hl (he ▸ by simp)
    exact hjoin.ring l (.inr ⟨.inr hl, by simp [hlk, hlx]⟩)

end

/-- **The list operations, in a heap made of circular lists.** Two lists are merged into one, which
from `a` reads `a`, the whole list of `b` from `b`, the rest of `a`'s list. A detached node is alone,
its list goes on in the same order, and what comes back is the node that was before it, `NULL` iff
there was none. A node that is detached and merged behind `k` is directly behind `k`, and all others
are in the order they had. Lists that take no part are not written to. -/
theorem listNode_operations (h : Rings L rings) :
    (∀ a l1 l2 b m1 m2, l1 ++ a :: l2 ∈ rings → m1 ++ b :: m2 ∈ rings → l1 ++ a :: l2 ≠ m1 ++ b :: m2 →
      ∃ L', mergeList L (some a) (some b) = (some a, L') ∧ Ring L' (a :: b :: (m2 ++ m1) ++ (l2 ++ l1)) ∧
        Rings L' ({a :: b :: (m2 ++ m1) ++ (l2 ++ l1)} ∪ rings \ {l1 ++ a :: l2, m1 ++ b :: m2}) ∧
        ∀ l ∈ rings, l ≠ l1 ++ a :: l2 → l ≠ m1 ++ b :: m2 → Kept L L' l) ∧
    (∀ x l1 l2, l1 ++ x :: l2 ∈ rings →
      ∃ r L', detachFromList L x = (r, L') ∧ Ring L' [x] ∧ Ring L' (l1 ++ l2) ∧
        Rings L' ({[x]} ∪ without rings l1 l2 x) ∧ (∀ l ∈ rings, l ≠ l1 ++ x :: l2 → Kept L L' l) ∧
        (r = none ↔ l1 ++ x :: l2 = [x]) ∧ ∀ q, r = some q → q = L.prev x ∧ (l2 ++ l1).getLast? = some q) ∧
    ∀ x l1 l2 k m1 m2, l1 ++ x :: l2 ∈ rings → m1 ++ k :: m2 ∈ without rings l1 l2 x →
      ∃ L', mergeList (detachFromList L x).2 (some k) (some x) = (some k, L') ∧
        Ring L' (m1 ++ k :: x :: m2) ∧ ∀ l ∈ without rings l1 l2 x, l ≠ m1 ++ k :: m2 → Ring L' l := by
  refine ⟨fun a l1 l2 b m1 m2 ha hb hne => ?merge, fun x l1 l2 hx => ?detach, fun x l1 l2 k m1 m2 hx hk => ?move⟩
  case merge =>
    have hjoin := h.join ha hb hne
    rw [← List.cons_append, ← List.cons_append] at hjoin
    refine ⟨L.join a b, rfl, hjoin.ring _ (.inl rfl), hjoin, fun l hl hla hlb => ?_⟩
    exact mergeList_kept h ha hb hl hla hlb
  case detach =>
    have hrings := detachFromList_rings h hx
    have hfst := detachFromList_fst (h.ring _ hx)
    have halone : (l2 ++ l1).getLast? = none ↔ l1 ++ x :: l2 = [x] := by
      simp [List.append_eq_cons_iff, and_comm]
    refine ⟨(l2 ++ l1).getLast?, _, Prod.ext hfst rfl, hrings.ring _ (.inl rfl),
      hrings.ring _ (.inr (.inl rfl)), hrings, fun l hl hlx => detachFromList_kept h hx hl hlx, halone,
      fun q hq => ⟨?_, hq⟩⟩
    rw [(h.ring _ hx).prev_eq, hq]
    rfl
  case move => exact ⟨_, rfl, merge_detached h hx hk⟩

/-- Three lists: 0, 1, 2, then 3, 4, and 5 alone. -/
def threeLists : Links (Fin 6) where
  next i := [1, 2, 0, 4, 3, 5].get i
  prev i := [2, 0, 1, 4, 3, 5].get i

theorem threeLists_rings : Rings threeLists {[0, 1, 2], [3, 4], [5]} where
  ring := by
    intro l hl
    rcases hl with rfl | rfl | rfl
    all_goals exact .of_round (by decide) (by simp [Links.Adjacent, threeLists])
  apart := by
    intro l hl l' hl'
    rcases hl with rfl | rfl | rfl <;> rcases hl' with rfl | rfl | rfl <;> decide

theorem listNode_operations_threeLists :
    (∃ L', mergeList threeLists (some 1) (some 4) = (some 1, L') ∧ Ring L' [1, 4, 3, 2, 0] ∧
      Kept threeLists L' [5]) ∧
    (∃ L', detachFromList threeLists 1 = (some 0, L') ∧ Ring L' [1] ∧ Ring L' [0, 2]) ∧
    ∃ L', mergeList (detachFromList threeLists 1).2 (some 3) (some 1) = (some 3, L') ∧
      Ring L' [3, 1, 4] ∧ Ring L' [0, 2] := by
  obtain ⟨hmerge, hdetach, hmove⟩ := listNode_operations threeLists_rings
  obtain ⟨L1, hrun1, hring1, -, hkept1⟩ := hmerge 1 [0] [2] 4 [3] [] (by simp) (by simp) (by simp)
  obtain ⟨r, L2, hrun2, halone, hrest, -, -, -, -⟩ := hdetach 1 [0] [2] (by simp)
  obtain ⟨L3, hrun3, hring3, hothers⟩ := hmove 1 [0] [2] 3 [] [4] (by simp) (.inr (by simp))
  obtain rfl : some 0 = r := congrArg Prod.fst hrun2
  exact ⟨⟨L1, hrun1, hring1, hkept1 [5] (by simp) (by simp) (by simp)⟩, ⟨L2, hrun2, halone, hrest⟩,
    L3, hrun3, hring3, hothers [0, 2] (.inl rfl) (by simp)⟩

end Heap

end OS2021.Common
