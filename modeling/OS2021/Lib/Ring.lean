import Mathlib.Data.List.Cycle
import Mathlib.Logic.Function.Basic

/-! Circular doubly linked lists in memory.

`Links` is the memory of the `next` and `prev` fields of all nodes. `Ring L l` says
that the nodes of `l`, and no node twice, form one circular list: each one's `next`
is the node after it and each one's `prev` the node before it, with the last node
before the first. A ring may be read from any of its nodes (`Ring.rotate`).

The operations write single fields, in order; their rules say which rings they make
of which. A ring that an operation does not write to is kept (`Ring.congr`). -/
namespace OS2021.Lib
open Function

/-- The two pointers of every node. -/
@[ext] structure Links (P : Type) where
  next : P → P
  prev : P → P

variable {P : Type}

namespace Links
variable [DecidableEq P]

def setNext (L : Links P) (p q : P) : Links P := {L with next := update L.next p q}

def setPrev (L : Links P) (p q : P) : Links P := {L with prev := update L.prev p q}

/-- A node becomes a list of its own. -/
def alone (L : Links P) (p : P) : Links P := (L.setPrev p p).setNext p p

/-- The list of `b`, read from `b`, is put behind `a`. -/
def join (L : Links P) (a b : P) : Links P :=
  let c := L.next a
  let d := L.prev b
  (((L.setNext a b).setPrev b a).setNext d c).setPrev c d

/-- A node is taken out of its list. -/
def unlink (L : Links P) (p : P) : Links P :=
  let M := L.setNext (L.prev p) (L.next p)
  (M.setPrev (M.next p) (M.prev p)).alone p

end Links

/-- Two nodes that follow each other. -/
def Links.Adjacent (L : Links P) (a b : P) : Prop := L.next a = b ∧ L.prev b = a

structure Ring (L : Links P) (l : List P) : Prop where
  nodup : l.Nodup
  chain : Cycle.Chain L.Adjacent (l : Cycle P)

variable {L L' : Links P} {a b p q : P} {l l1 l2 : List P} {f : P → P}

/-! ### Reading a ring -/

theorem Ring.rotate (h : Ring L (l1 ++ l2)) : Ring L (l2 ++ l1) where
  nodup := by
    have hperm : (l2 ++ l1).Perm (l1 ++ l2) := List.perm_append_comm
    exact hperm.nodup_iff.mpr h.nodup
  chain := by
    have hrot : ((l1 ++ l2 : List P) : Cycle P) = (l2 ++ l1 : List P) :=
      Cycle.coe_eq_coe.mpr List.isRotated_append
    exact hrot ▸ h.chain

/-- From the first node round to the first node. -/
theorem Ring.round (h : Ring L (a :: l)) : List.IsChain L.Adjacent (a :: (l ++ [a])) :=
  (Cycle.chain_coe_cons ..).mp h.chain

theorem Ring.of_round (hn : (a :: l).Nodup) (h : List.IsChain L.Adjacent (a :: (l ++ [a]))) : Ring L (a :: l) :=
  ⟨hn, (Cycle.chain_coe_cons ..).mpr h⟩

/-- The node after `a`, from wherever the ring is read. -/
theorem Ring.adjacent (h : Ring L (l1 ++ a :: b :: l2)) : L.Adjacent a b := by
  have hround : List.IsChain L.Adjacent (a :: ((b :: l2 ++ l1) ++ [a])) := h.rotate.round
  rw [List.cons_append, List.cons_append, List.isChain_cons_cons] at hround
  exact hround.1

/-- The last node is before the first. -/
theorem Ring.closes (h : Ring L (a :: l)) : L.Adjacent ((a :: l).getLast (List.cons_ne_nil a l)) a := by
  have hround : List.IsChain L.Adjacent ((a :: l) ++ [a]) := h.round
  exact (List.isChain_append.mp hround).2.2 _ (List.getLast?_eq_getLast_of_ne_nil _) a rfl

/-- The node before, which is the node itself if it is alone. -/
theorem Ring.prev_eq (h : Ring L (l1 ++ p :: l2)) : L.prev p = ((l2 ++ l1).getLast?).getD p := by
  have hlast : (p :: (l2 ++ l1)).getLast? = some (L.prev p) := by
    rw [(Ring.closes h.rotate).2]
    exact List.getLast?_eq_getLast_of_ne_nil _
  rw [List.getLast?_cons] at hlast
  exact (Option.some.inj hlast).symm

/-- The operations elsewhere do not matter. -/
theorem Ring.congr (h : Ring L l) (hl : ∀ x ∈ l, L'.next x = L.next x ∧ L'.prev x = L.prev x) : Ring L' l := by
  cases l with
  | nil => exact ⟨h.nodup, Cycle.Chain.nil _⟩
  | cons a rest =>
    refine .of_round h.nodup (h.round.imp_of_mem_imp fun x y hx hy hadj => ?_)
    have hmem : ∀ z ∈ a :: (rest ++ [a]), z ∈ a :: rest := by simp [or_comm]
    exact ⟨(hl x (hmem x hx)).1.trans hadj.1, (hl y (hmem y hy)).2.trans hadj.2⟩

section
variable (h : Ring L l) (hp : p ∈ l)
include h hp

theorem Ring.exists_next : ∃ q ∈ l, L.Adjacent p q := by
  obtain ⟨before, behind, rfl⟩ := List.append_of_mem hp
  have hround : List.IsChain L.Adjacent (p :: ((behind ++ before) ++ [p])) := h.rotate.round
  cases hrest : behind ++ before with
  | nil =>
    rw [hrest, List.nil_append, List.isChain_cons_cons] at hround
    exact ⟨p, hp, hround.1⟩
  | cons q rest =>
    rw [hrest, List.cons_append, List.isChain_cons_cons] at hround
    have hq : q ∈ behind ++ before := hrest ▸ List.mem_cons_self ..
    exact ⟨q, by simpa [or_comm, or_assoc, or_left_comm] using Or.inr (List.mem_append.mp hq), hround.1⟩

theorem Ring.exists_prev : ∃ q ∈ l, L.Adjacent q p := by
  obtain ⟨before, behind, rfl⟩ := List.append_of_mem hp
  have hmem : ∀ x ∈ p :: (behind ++ before), x ∈ before ++ p :: behind := by
    simp [or_comm, or_left_comm]
  exact ⟨_, hmem _ (List.getLast_mem _), Ring.closes h.rotate⟩

theorem Ring.next_mem : L.next p ∈ l := by
  obtain ⟨q, hq, hadj⟩ := h.exists_next hp
  exact hadj.1 ▸ hq

theorem Ring.prev_mem : L.prev p ∈ l := by
  obtain ⟨q, hq, hadj⟩ := h.exists_prev hp
  exact hadj.2 ▸ hq

theorem Ring.prev_next : L.prev (L.next p) = p := by
  obtain ⟨q, -, rfl, hprev⟩ := h.exists_next hp
  exact hprev

theorem Ring.next_prev : L.next (L.prev p) = p := by
  obtain ⟨q, -, hnext, rfl⟩ := h.exists_prev hp
  exact hnext

end

/-! ### The operations -/

section Operations
variable [DecidableEq P]

theorem alone_next (x : P) : (L.alone p).next x = if x = p then p else L.next x :=
  update_apply ..

theorem alone_prev (x : P) : (L.alone p).prev x = if x = p then p else L.prev x :=
  update_apply ..

theorem join_next (x : P) :
    (L.join a b).next x = if x = L.prev b then L.next a else if x = a then b else L.next x := by
  simp only [Links.join, Links.setNext, Links.setPrev, update_apply]

theorem join_prev (x : P) :
    (L.join a b).prev x = if x = L.next a then L.prev b else if x = b then a else L.prev x := by
  simp only [Links.join, Links.setNext, Links.setPrev, update_apply]

theorem unlink_next (x : P) :
    (L.unlink p).next x = if x = p then p else if x = L.prev p then L.next p else L.next x := by
  simp only [Links.unlink, alone_next, Links.setNext, Links.setPrev, update_apply]

theorem unlink_prev (x : P) :
    (L.unlink p).prev x = if x = p then p else if x = L.next p then L.prev p else L.prev x := by
  simp only [Links.unlink, alone_prev, Links.setNext, Links.setPrev, update_apply, ite_self]

theorem Ring.alone : Ring (L.alone p) [p] := by
  refine .of_round (List.nodup_singleton p) ?_
  simp [Links.Adjacent, alone_next, alone_prev]

/-- A node outside may be made a list of its own. -/
theorem Ring.alone_of_not_mem (h : Ring L l) (hp : p ∉ l) : Ring (L.alone p) l := by
  refine h.congr fun x hx => ?_
  have hxp : x ≠ p := fun he => hp (he ▸ hx)
  rw [alone_next, alone_prev, if_neg hxp, if_neg hxp]
  exact ⟨rfl, rfl⟩

/-- What is left is the ring without the node. -/
theorem Ring.unlink (h : Ring L (p :: l)) : Ring (L.unlink p) l := by
  have hp : p ∈ p :: l := List.mem_cons_self ..
  obtain ⟨hpl, hnl⟩ := List.nodup_cons.mp h.nodup
  cases l with
  | nil => exact ⟨hnl, Cycle.Chain.nil _⟩
  | cons q rest =>
    have hpq : L.Adjacent p q := (List.isChain_cons_cons.mp h.round).1
    have hrest : List.IsChain L.Adjacent ((q :: rest) ++ [p]) := (List.isChain_cons.mp h.round).2
    obtain ⟨hinner, -, hlast⟩ := List.isChain_append.mp hrest
    suffices hround : List.IsChain (L.unlink p).Adjacent ((q :: rest) ++ [q]) from .of_round hnl hround
    refine List.isChain_append.mpr ⟨?_, List.isChain_singleton _, ?_⟩
    · -- inside, no `next` pointed to the node and no `prev` did
      refine hinner.imp_of_mem_imp fun x y hx hy hadj => ?_
      have hxp : x ≠ p := fun he => hpl (he ▸ hx)
      have hyp : y ≠ p := fun he => hpl (he ▸ hy)
      have hxz : x ≠ L.prev p := fun he => hyp (hadj.1.symm.trans (he ▸ h.next_prev hp))
      have hyq : y ≠ L.next p := fun he => hxp (hadj.2.symm.trans (he ▸ h.prev_next hp))
      rw [Links.Adjacent, unlink_next, unlink_prev, if_neg hxp, if_neg hxz, if_neg hyp, if_neg hyq]
      exact hadj
    · -- the two neighbours of the node now follow each other
      intro z hz y hy
      cases hy
      have hzp : L.Adjacent z p := hlast z hz p rfl
      have hz' : z ≠ p := fun he => hpl (he ▸ List.mem_of_mem_getLast? hz)
      have hq' : q ≠ p := fun he => hpl (he ▸ List.mem_cons_self ..)
      rw [Links.Adjacent, unlink_next, unlink_prev, if_neg hz', if_pos hzp.2.symm, if_neg hq',
        if_pos hpq.1.symm]
      exact ⟨hpq.1, hzp.2⟩

theorem Ring.unlink_middle (h : Ring L (l1 ++ p :: l2)) : Ring (L.unlink p) (l1 ++ l2) :=
  Ring.rotate (Ring.unlink h.rotate)

theorem Ring.unlinked (L : Links P) (p : P) : Ring (L.unlink p) [p] := Ring.alone

/-- Two rings become one. -/
theorem Ring.join (ha : Ring L (a :: l1)) (hb : Ring L (b :: l2))
    (hd : ∀ x ∈ a :: l1, x ∉ b :: l2) : Ring (L.join a b) (a :: b :: (l2 ++ l1)) := by
  have hin : a ∈ a :: l1 := List.mem_cons_self ..
  have hout : b ∈ b :: l2 := List.mem_cons_self ..
  have hc := ha.next_mem hin
  have hz := hb.prev_mem hout
  have hab : a ≠ L.prev b := fun he => hd a hin (he ▸ hz)
  have hbc : b ≠ L.next a := fun he => hd (L.next a) hc (he ▸ hout)
  have hnodup : (a :: b :: (l2 ++ l1)).Nodup := by
    have hboth : ((a :: l1) ++ (b :: l2)).Nodup := List.nodup_append.mpr
      ⟨ha.nodup, hb.nodup, fun x hx y hy he => hd x hx (he ▸ hy)⟩
    refine (List.Perm.nodup_iff ?_).mpr hboth
    have hswap : ((b :: l2) ++ l1).Perm (l1 ++ b :: l2) := List.perm_append_comm
    exact hswap.cons a
  have hfirst : (l1 ++ [a]).head? = some (L.next a) := by
    cases l1 with
    | nil | cons c rest => exact congrArg some (List.isChain_cons_cons.mp ha.round).1.1.symm
  have hlast : L.prev b = (b :: l2).getLast (List.cons_ne_nil b l2) := hb.closes.2
  have hback : List.IsChain L.Adjacent (b :: l2) := by
    have hround : List.IsChain L.Adjacent ((b :: l2) ++ [b]) := hb.round
    exact (List.isChain_append.mp hround).1
  have hfront : List.IsChain L.Adjacent (l1 ++ [a]) := (List.isChain_cons.mp ha.round).2
  have hmem : ∀ x ∈ l1 ++ [a], x ∈ a :: l1 := by simp [or_comm]
  refine .of_round hnodup ?_
  suffices hchain : List.IsChain (L.join a b).Adjacent ((b :: l2) ++ (l1 ++ [a])) by
    rw [List.cons_append, List.append_assoc]
    refine List.isChain_cons_cons.mpr ⟨?_, hchain⟩
    rw [Links.Adjacent, join_next, join_prev, if_neg hab, if_pos rfl, if_neg hbc, if_pos rfl]
    exact ⟨rfl, rfl⟩
  refine List.isChain_append.mpr ⟨?_, ?_, ?_⟩
  · -- inside the second list only the way out of its last node changes
    refine hback.imp_of_mem_tail_imp fun x y hx hy hadj => ?_
    have hyb : y ≠ b := fun he => (List.nodup_cons.mp hb.nodup).1 (he ▸ hy)
    have hxz : x ≠ L.prev b := fun he => hyb (hadj.1.symm.trans (he ▸ hb.next_prev hout))
    have hxa : x ≠ a := fun he => hd a hin (he ▸ hx)
    have hyc : y ≠ L.next a := fun he => hd (L.next a) hc (he ▸ List.mem_cons_of_mem b hy)
    rw [Links.Adjacent, join_next, join_prev, if_neg hxz, if_neg hxa, if_neg hyc, if_neg hyb]
    exact hadj
  · -- inside the first list only the way into its second node does
    refine hfront.imp_of_mem_tail_imp fun x y hx hy hadj => ?_
    have hyc : y ≠ L.next a := by
      obtain ⟨rest, hrest⟩ := List.head?_eq_some_iff.mp hfirst
      have hnew : (l1 ++ [a]).Nodup := (List.perm_append_singleton a l1).nodup_iff.mpr ha.nodup
      rw [hrest] at hy hnew
      exact fun he => (List.nodup_cons.mp hnew).1 (he ▸ hy)
    have hxa : x ≠ a := fun he => hyc (he ▸ hadj.1.symm)
    have hxz : x ≠ L.prev b := fun he => hd x (hmem x hx) (he ▸ hz)
    have hyb : y ≠ b := fun he => hd y (hmem y (List.mem_of_mem_tail hy)) (he ▸ hout)
    rw [Links.Adjacent, join_next, join_prev, if_neg hxz, if_neg hxa, if_neg hyc, if_neg hyb]
    exact hadj
  · intro z hz' y hy
    rw [List.getLast?_eq_getLast_of_ne_nil (List.cons_ne_nil b l2), ← hlast] at hz'
    rw [hfirst] at hy
    cases hz'
    cases hy
    rw [Links.Adjacent, join_next, join_prev, if_pos rfl, if_pos rfl]
    exact ⟨rfl, rfl⟩

/-- A node of the ring is moved behind its first one. -/
theorem Ring.moved (h : Ring L (a :: (l1 ++ p :: l2))) :
    Ring ((L.unlink p).join a p) (a :: p :: (l1 ++ l2)) := by
  have hmid : Ring L ((a :: l1) ++ p :: l2) := h
  have hout : ∀ x ∈ (a :: l1) ++ l2, x ∉ [p] := by
    have hrot := (List.nodup_cons.mp hmid.rotate.nodup).1
    intro x hx hp
    obtain rfl := List.mem_singleton.mp hp
    exact hrot (List.perm_append_comm.mem_iff.mp hx)
  exact hmid.unlink_middle.join (Ring.unlinked L p) hout

/-- A node from outside is put behind the first one. -/
theorem Ring.inserted (h : Ring L (a :: l)) (hp : p ∉ a :: l) : Ring ((L.alone p).join a p) (a :: p :: l) := by
  have hout : ∀ x ∈ a :: l, x ∉ [p] := fun x hx he => hp (List.mem_singleton.mp he ▸ hx)
  exact (h.alone_of_not_mem hp).join Ring.alone hout

/-- Nodes of neither list keep their fields. -/
theorem Ring.join_frame (ha : Ring L l1) (hb : Ring L l2) (hal : a ∈ l1) (hbl : b ∈ l2) (h1 : p ∉ l1)
    (h2 : p ∉ l2) : (L.join a b).next p = L.next p ∧ (L.join a b).prev p = L.prev p := by
  have hpa : p ≠ a := fun he => h1 (he ▸ hal)
  have hpb : p ≠ b := fun he => h2 (he ▸ hbl)
  have hpc : p ≠ L.next a := fun he => h1 (he ▸ ha.next_mem hal)
  have hpz : p ≠ L.prev b := fun he => h2 (he ▸ hb.prev_mem hbl)
  rw [join_next, join_prev, if_neg hpz, if_neg hpa, if_neg hpc, if_neg hpb]
  exact ⟨rfl, rfl⟩

/-- Nodes of other lists keep their fields. -/
theorem Ring.unlink_frame (h : Ring L l) (ha : a ∈ l) (hp : p ∉ l) :
    (L.unlink a).next p = L.next p ∧ (L.unlink a).prev p = L.prev p := by
  have hpa : p ≠ a := fun he => hp (he ▸ ha)
  have hpc : p ≠ L.next a := fun he => hp (he ▸ h.next_mem ha)
  have hpz : p ≠ L.prev a := fun he => hp (he ▸ h.prev_mem ha)
  rw [unlink_next, unlink_prev, if_neg hpa, if_neg hpz, if_neg hpa, if_neg hpc]
  exact ⟨rfl, rfl⟩

end Operations

/-! ### A heap of rings -/

/-- The heap is made of circular lists, and no node is in two of them. -/
structure Rings (L : Links P) (rings : Set (List P)) : Prop where
  ring : ∀ l ∈ rings, Ring L l
  apart : ∀ l ∈ rings, ∀ l' ∈ rings, l ≠ l' → ∀ x ∈ l, x ∉ l'

namespace Rings
variable {rings old new : Set (List P)}

theorem single (h : Ring L l) : Rings L {l} where
  ring _ hl := Set.mem_singleton_iff.mp hl ▸ h
  apart _ h1 _ h2 hne := absurd ((Set.mem_singleton_iff.mp h1).trans (Set.mem_singleton_iff.mp h2).symm) hne

/-- Some lists are exchanged for others, made of their nodes; no node outside is written to. -/
theorem exchange (h : Rings L rings) (hold : old ⊆ rings) (hnew : Rings L' new)
    (hfrom : ∀ l ∈ new, ∀ x ∈ l, ∃ l' ∈ old, x ∈ l')
    (hout : ∀ x, (∀ l ∈ old, x ∉ l) → L'.next x = L.next x ∧ L'.prev x = L.prev x) :
    Rings L' (new ∪ rings \ old) := by
  have hapart : ∀ l ∈ rings \ old, ∀ l' ∈ old, ∀ x ∈ l, x ∉ l' := by
    intro l hl l' hl' x hx
    exact h.apart l hl.1 l' (hold hl') (fun he => hl.2 (he ▸ hl')) x hx
  have hnever : ∀ l ∈ rings \ old, ∀ l' ∈ new, ∀ x ∈ l, x ∉ l' := by
    intro l hl l' hl' x hx hn
    obtain ⟨l0, hl0, hx0⟩ := hfrom l' hl' x hn
    exact hapart l hl l0 hl0 x hx hx0
  refine ⟨fun l hl => ?ring, fun l hl l' hl' hne x hx => ?apart⟩
  case ring =>
    rcases hl with hl | hl
    · exact hnew.ring l hl
    · exact (h.ring l hl.1).congr fun x hx => hout x fun l' hl' => hapart l hl l' hl' x hx
  case apart =>
    rcases hl with hl | hl <;> rcases hl' with hl' | hl'
    · exact hnew.apart l hl l' hl' hne x hx
    · exact fun hx' => hnever l' hl' l hl x hx' hx
    · exact hnever l hl l' hl' x hx
    · exact h.apart l hl.1 l' hl'.1 hne x hx

section Operations
variable [DecidableEq P] {m1 m2 : List P}

/-- Two lists become one, which reads from `a` as `a`, the list of `b` from `b`, and the rest of `a`'s. -/
theorem join (h : Rings L rings) (ha : l1 ++ a :: l2 ∈ rings) (hb : m1 ++ b :: m2 ∈ rings)
    (hne : l1 ++ a :: l2 ≠ m1 ++ b :: m2) :
    Rings (L.join a b) ({a :: b :: (m2 ++ m1 ++ (l2 ++ l1))} ∪
      rings \ {l1 ++ a :: l2, m1 ++ b :: m2}) := by
  have hra := h.ring _ ha
  have hrb := h.ring _ hb
  have hmem : ∀ {c : P} {k1 k2 : List P} {x : P}, x ∈ c :: (k2 ++ k1) ↔ x ∈ k1 ++ c :: k2 := by
    intro c k1 k2 x
    exact (List.perm_append_comm : ((c :: k2) ++ k1).Perm _).mem_iff
  have hapart : ∀ x ∈ a :: (l2 ++ l1), x ∉ b :: (m2 ++ m1) := by
    intro x hx hx'
    exact h.apart _ ha _ hb hne x (hmem.mp hx) (hmem.mp hx')
  have hring : Ring (L.join a b) (a :: b :: (m2 ++ m1 ++ (l2 ++ l1))) := hra.rotate.join hrb.rotate hapart
  refine h.exchange (Set.pair_subset ha hb) (single hring) (fun l hl x hx => ?_) fun x hx => ?_
  · obtain rfl := Set.mem_singleton_iff.mp hl
    have hx : x ∈ a :: (l2 ++ l1) ∨ x ∈ b :: (m2 ++ m1) := by
      simp only [List.mem_cons, List.mem_append] at hx ⊢
      tauto
    rcases hx with hx | hx
    · exact ⟨_, Set.mem_insert .., hmem.mp hx⟩
    · exact ⟨_, Set.mem_insert_of_mem _ rfl, hmem.mp hx⟩
  · exact hra.join_frame hrb (by simp) (by simp) (hx _ (Set.mem_insert ..)) (hx _ (Set.mem_insert_of_mem _ rfl))

/-- A node is alone afterwards, and its list goes on without it. -/
theorem unlink (h : Rings L rings) (hp : l1 ++ p :: l2 ∈ rings) :
    Rings (L.unlink p) ({[p], l1 ++ l2} ∪ rings \ {l1 ++ p :: l2}) := by
  have hr := h.ring _ hp
  have hout : p ∉ l1 ++ l2 := (List.nodup_middle.mp hr.nodup |> List.nodup_cons.mp).1
  have hnew : Rings (L.unlink p) {[p], l1 ++ l2} := by
    refine ⟨fun l hl => ?_, fun l hl l' hl' hne x hx hx' => ?_⟩
    · rcases hl with rfl | rfl
      · exact Ring.unlinked L p
      · exact hr.unlink_middle
    · rcases hl with rfl | rfl <;> rcases hl' with rfl | rfl
      · exact hne rfl
      · exact hout (List.mem_singleton.mp hx ▸ hx')
      · exact hout (List.mem_singleton.mp hx' ▸ hx)
      · exact hne rfl
  refine h.exchange (Set.singleton_subset_iff.mpr hp) hnew (fun l hl x hx => ⟨_, rfl, ?_⟩) fun x hx => ?_
  · rcases hl with rfl | rfl
    · simp [List.mem_singleton.mp hx]
    · simp only [List.mem_append, List.mem_cons] at hx ⊢
      tauto
  · exact hr.unlink_frame (by simp) (hx _ rfl)

end Operations

end Rings

/-! ### Going round -/

/-- From `p`, following `f`, through the nodes of a list to `q`. -/
def Path (f : P → P) : P → List P → P → Prop
  | p, [], q => p = q
  | p, x :: rest, q => p = x ∧ Path f (f p) rest q

theorem path_of_chain (h : List.IsChain (fun x y => f x = y) (a :: (l ++ [b]))) : Path f (f a) l b := by
  induction l generalizing a with
  | nil => exact (List.isChain_cons_cons.mp h).1
  | cons x rest ih =>
    obtain ⟨hx, hrest⟩ := List.isChain_cons_cons.mp h
    exact ⟨hx, hx ▸ ih hrest⟩

theorem Ring.forward (h : Ring L (a :: l)) : Path L.next (L.next a) l a :=
  path_of_chain (h.round.imp fun _ _ hadj => hadj.1)

end OS2021.Lib
